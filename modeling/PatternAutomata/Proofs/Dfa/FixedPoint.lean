import PatternAutomata.Proofs.Dfa.Constructed

namespace PatternAutomata

namespace Dfa

variable {d : Dfa} {i : Nat} {s : State}

theorem eq_singleton_of_mem_classes (hd : d.WellFormed) (hreduced : d.Reduced) {block : List Nat}
    (hblock : block ∈ d.classes) : ∃ s, block = [s] := by
  have hdivides := d.divides_classes
  have hincreasing := hdivides.increasing block hblock
  cases block with
  | nil => exact absurd rfl (hdivides.nonempty [] hblock)
  | cons s rest =>
    cases rest with
    | nil => exact ⟨s, rfl⟩
    | cons t rest =>
      have ht : t ∈ s :: t :: rest := List.mem_cons_of_mem s List.mem_cons_self
      have hslt := hdivides.lt_size hblock List.mem_cons_self
      have htlt := hdivides.lt_size hblock ht
      have hsame := (together_classes_iff hd hslt htlt).mp ⟨_, hblock, List.mem_cons_self, ht⟩
      have hlt := (List.pairwise_cons.mp hincreasing).1 t List.mem_cons_self
      exact absurd (hreduced s hslt t htlt hsame) hlt.ne

theorem eq_map_singleton_flatten {blocks : List (List Nat)} (h : ∀ block ∈ blocks, ∃ s, block = [s]) :
    blocks = blocks.flatten.map fun s => [s] := by
  induction blocks with
  | nil => rfl
  | cons block blocks ih =>
    obtain ⟨⟨s, rfl⟩, hrest⟩ := List.forall_mem_cons.mp h
    rw [List.flatten_cons, List.singleton_append, List.map_cons, ← ih hrest]

/-- If no two states mean the same, the classes are the single states in their order. -/
theorem classes_eq_singletons (hd : d.WellFormed) (hreduced : d.Reduced) :
    d.classes = (List.range d.size).map fun s => [s] := by
  have hsingle : ∀ block ∈ d.classes, ∃ s, block = [s] := fun block h => eq_singleton_of_mem_classes hd hreduced h
  have hincreasing : d.classes.flatten.Pairwise (· < ·) := by
    rw [List.pairwise_flatten]
    refine ⟨d.divides_classes.increasing, ?_⟩
    apply d.ordered_classes.imp_of_mem
    intro block later hblock _ hfirst s hs t ht
    obtain ⟨u, rfl⟩ := hsingle block hblock
    obtain ⟨u', hu', hlt⟩ := hfirst
    rw [List.mem_singleton] at hs hu'
    rw [hs, ← hu']
    exact hlt t ht
  have hflatten : d.classes.flatten = List.range d.size :=
    hincreasing.eq_of_mem_iff List.pairwise_lt_range fun _ => d.divides_classes.perm.mem_iff
  rw [eq_map_singleton_flatten hsingle, hflatten]

theorem merged_singleton (blockOf : Array Nat) (hs : d.states[i]? = some s) : d.merged blockOf i [i] =
    ⟨nameAt i, ascending s.subset, s.accepting, s.edges.map fun e => (e.1, blockOf[e.2]?.getD 0)⟩ := by
  simp [merged, isAccepting, hs]

/-- If states are named by their numbers and mean different things, there is nothing to merge. -/
theorem minimize_eq_self (hd : d.WellFormed) (hreduced : d.Reduced) (hnamed : d.Named)
    (hsets : ∀ (i : Nat) (s : State), d.states[i]? = some s → ascending s.subset = s.subset) :
    d.minimize = ⟨d, (List.range d.size).map fun s => [s]⟩ := by
  have hclasses := classes_eq_singletons hd hreduced
  have hclass {i : Nat} (hi : i < d.size) : d.classes[i]? = some [i] := by
    rw [hclasses, List.getElem?_map, List.getElem?_range hi, Option.map_some]
  have hclassOf {i : Nat} (hi : i < d.size) : d.classOf i = i := classOf_eq (hclass hi) (List.mem_singleton_self i)
  -- Each class is one state, so merging it only sends its edges to the classes of their targets, the targets themselves.
  have hstates : d.minimize.dfa.states = d.states := by
    apply Array.ext_getElem?
    intro i
    rw [state_minimize hd]
    cases hs : d.states[i]? with
    | none =>
      have hi : d.size ≤ i := Array.getElem?_eq_none_iff.mp hs
      rw [hclasses, List.getElem?_eq_none (by simpa using hi), Option.map_none]
    | some s =>
      have hi : i < d.size := (Array.getElem?_eq_some_iff.mp hs).1
      have hedges : s.edges.map (fun e => (e.1, d.classOf e.2)) = s.edges := by
        conv_rhs => rw [← List.map_id s.edges]
        apply List.map_congr_left
        intro e he
        rw [hclassOf (hd.target_lt i s hs e he), id]
      rw [hclass hi, Option.map_some, merged_singleton _ hs, hsets i s hs, ← hnamed i s hs]
      exact congrArg (fun edges => some (State.mk s.name s.subset s.accepting edges)) hedges
  have hstart : d.minimize.dfa.start = d.start := by
    rw [start_minimize hd, hclassOf hd.start_lt]
  calc
    d.minimize = ⟨⟨d.minimize.dfa.states, d.minimize.dfa.start⟩, d.minimize.blocks⟩ := rfl
    _ = ⟨d, (List.range d.size).map fun s => [s]⟩ := by rw [hstates, hstart, blocks_minimize hd, hclasses]

theorem ascending_subset_minimize (hd : d.WellFormed) (hs : d.minimize.dfa.states[i]? = some s) :
    ascending s.subset = s.subset := by
  rw [state_minimize hd] at hs
  obtain ⟨block, -, rfl⟩ := Option.map_eq_some_iff.mp hs
  exact ascending_ascending _

theorem minimize_lone : lone.minimize = ⟨lone, [[0]]⟩ := by
  have hreduced : lone.Reduced := by
    intro s hs t ht _
    have hsize : lone.size = 1 := rfl
    omega
  apply minimize_eq_self wellFormed_lone hreduced
  · intro i s hs
    obtain ⟨rfl, rfl⟩ := state_lone hs
    rfl
  · intro i s hs
    rw [(state_lone hs).2]
    rfl

/-- Minimizing what has been minimized gives it back, with each of its states as a block. -/
theorem Constructed.minimize_minimize (h : d.Constructed) :
    d.minimize.dfa.minimize = ⟨d.minimize.dfa, (List.range d.minimize.dfa.size).map fun i => [i]⟩ := by
  rcases Nat.eq_zero_or_pos d.size with hsize | hpos
  · rw [minimize_of_size_eq_zero hsize, minimize_lone]
    rfl
  · have hd := h.wellFormed hpos
    exact minimize_eq_self (wellFormed_minimize hd) (reduced_minimize hd) (named_minimize hd)
      fun _ _ hs => ascending_subset_minimize hd hs

/-- The states after `a` and after `b` are merged, and so are their sets; afterwards there is nothing to merge. -/
theorem Constructed.minimize_minimize_of_equal_branches : ∃ n, Nfa.ofPattern? "ac|bc" = .ok n ∧ n.toDfa.Constructed ∧
    n.toDfa.minimize.dfa.minimize =
      ⟨n.toDfa.minimize.dfa, (List.range n.toDfa.minimize.dfa.size).map fun i => [i]⟩ := by
  obtain ⟨n, hn⟩ : ∃ n, Nfa.ofPattern? "ac|bc" = .ok n := ⟨_, rfl⟩
  exact ⟨n, hn, .toDfa n, (Constructed.toDfa n).minimize_minimize⟩

end Dfa

end PatternAutomata
