import PatternAutomata.Proofs.Dfa.Refinement

namespace PatternAutomata

namespace Dfa

def classOf (d : Dfa) (s : Nat) : Nat := number d.size d.classes s

variable {d : Dfa} {s t i j : Nat} {block block' : List Nat}

/-- The first member of a class comes before all members of later classes. -/
theorem first_lt_of_lt (hi : d.classes[i]? = some (s :: block)) (hj : d.classes[j]? = some block') (hij : i < j)
    (ht : t ∈ block') : s < t := by
  have hdivides := d.divides_classes
  obtain ⟨hilt, hieq⟩ := List.getElem?_eq_some_iff.mp hi
  obtain ⟨hjlt, hjeq⟩ := List.getElem?_eq_some_iff.mp hj
  have hsorted : d.classes.Pairwise fun a b => (decide (a.headD 0 ≤ b.headD 0)) = true := by
    apply List.pairwise_mergeSort
    · intro a b c hab hbc
      rw [decide_eq_true_eq] at hab hbc ⊢
      exact hab.trans hbc
    · intro a b
      rw [Bool.or_eq_true, decide_eq_true_eq, decide_eq_true_eq]
      exact le_total _ _
  have hheads := List.pairwise_iff_getElem.mp hsorted i j hilt hjlt hij
  rw [decide_eq_true_eq, hieq, hjeq, List.headD_cons] at hheads
  have hincreasing := hdivides.increasing block' (List.mem_of_getElem? hj)
  have hhead : block'.headD 0 ≤ t := by
    cases block' with
    | nil => cases ht
    | cons u rest =>
      rcases List.mem_cons.mp ht with rfl | hmem
      · exact le_rfl
      · exact ((List.pairwise_cons.mp hincreasing).1 t hmem).le
  -- The first members come in order, and equal ones would put a state into two classes.
  have hne : s ≠ t := by
    rintro rfl
    have := hdivides.index_unique hi hj List.mem_cons_self ht
    omega
  omega

theorem classOf_eq (hi : d.classes[i]? = some block) (hs : s ∈ block) : d.classOf s = i :=
  d.divides_classes.number_eq hi hs

theorem classOf_eq_iff (hd : d.WellFormed) (hs : s < d.size) (ht : t < d.size) :
    d.classOf s = d.classOf t ↔ d.Indistinguishable s t := by
  rw [← together_classes_iff hd hs ht]
  exact (d.divides_classes.together_iff hs ht).symm

section Minimize

variable (hd : d.WellFormed)
include hd

theorem dfa_minimize : d.minimize.dfa =
    ⟨(d.classes.mapIdx (d.merged (blockIndex d.size d.classes))).toArray, d.classOf d.start⟩ := by
  have hstart := hd.start_lt
  rw [minimize, if_neg (by omega)]
  rfl

theorem state_minimize (i : Nat) :
    d.minimize.dfa.states[i]? = d.classes[i]?.map (d.merged (blockIndex d.size d.classes) i) := by
  rw [dfa_minimize hd, List.getElem?_toArray, List.getElem?_mapIdx]

theorem size_minimize : d.minimize.dfa.size = d.classes.length := by
  rw [size, dfa_minimize hd, List.size_toArray, List.length_mapIdx]

theorem start_minimize : d.minimize.dfa.start = d.classOf d.start := by
  rw [dfa_minimize hd]

theorem blocks_minimize : d.minimize.blocks = d.classes := by
  have hstart := hd.start_lt
  rw [minimize, if_neg (by omega)]

/-- Every state of the minimized automaton stands for a class, which has a first member. -/
theorem exists_class (hi : i < d.minimize.dfa.size) : ∃ s block, d.classes[i]? = some (s :: block) := by
  rw [size_minimize hd] at hi
  have hget := List.getElem?_eq_getElem hi
  cases hblock : d.classes[i] with
  | nil => exact absurd hblock (d.divides_classes.nonempty _ (List.getElem_mem hi))
  | cons s block => exact ⟨s, block, by rw [hget, hblock]⟩

theorem exists_classOf (hi : i < d.minimize.dfa.size) : ∃ s < d.size, d.classOf s = i := by
  obtain ⟨s, block, hclass⟩ := exists_class hd hi
  exact ⟨s, d.divides_classes.lt_size (List.mem_of_getElem? hclass) List.mem_cons_self,
    classOf_eq hclass List.mem_cons_self⟩

/-- A state is in a class with an index, and with the first member of which no word tells it apart. -/
theorem exists_first (hs : s < d.size) : ∃ t block, d.classes[d.classOf s]? = some (t :: block) ∧ s ∈ t :: block ∧
    t < d.size ∧ d.Indistinguishable s t := by
  obtain ⟨block, hblock, hsb⟩ := d.divides_classes.exists_block hs
  obtain ⟨i, hi⟩ := List.getElem?_of_mem hblock
  obtain rfl := classOf_eq hi hsb
  cases block with
  | nil => cases hsb
  | cons t block =>
    have ht := d.divides_classes.lt_size hblock List.mem_cons_self
    exact ⟨t, block, hi, hsb, ht, (together_classes_iff hd hs ht).mp ⟨_, hblock, hsb, List.mem_cons_self⟩⟩

theorem classOf_lt (hs : s < d.size) : d.classOf s < d.minimize.dfa.size := by
  obtain ⟨t, block, hclass, -⟩ := exists_first hd hs
  rw [size_minimize hd]
  exact (List.getElem?_eq_some_iff.mp hclass).1

theorem blockOf?_minimize (hs : s < d.size) : d.minimize.blockOf? s = some (d.classOf s) := by
  obtain ⟨t, block, hclass, hmem, -⟩ := exists_first hd hs
  obtain ⟨hlt, hget⟩ := List.getElem?_eq_some_iff.mp hclass
  rw [Minimal.blockOf?, blocks_minimize hd, List.findIdx?_eq_some_iff_getElem]
  refine ⟨hlt, ?_, ?_⟩
  · rw [hget, List.contains_iff_mem]
    exact hmem
  · intro j hj hcontains
    rw [List.contains_iff_mem] at hcontains
    have hearlier := d.divides_classes.index_unique (List.getElem?_eq_getElem (hj.trans hlt)) hclass hcontains hmem
    omega

theorem transition?_minimize (hs : s < d.size) (c : Char) :
    d.minimize.dfa.transition? (d.classOf s) c = (d.transition? s c).map d.classOf := by
  -- The merged state takes its edges from the first member, and all members go to the same classes.
  obtain ⟨t, block, hclass, -, ht, hst⟩ := exists_first hd hs
  have hafter : (d.transition? s c).map d.classOf = (d.transition? t c).map d.classOf :=
    hst.blockAfter_eq hd d.divides_classes (fun s hs t ht h => (together_classes_iff hd hs ht).mpr h) c
  have hstate := Array.getElem?_eq_getElem ht
  have hedges : (d.merged (blockIndex d.size d.classes) (d.classOf s) (t :: block)).edges =
      d.states[t].edges.map fun e => (e.1, d.classOf e.2) := by
    rw [merged, List.head?_cons, Option.bind_some, hstate]
    rfl
  rw [hafter, transition?, state_minimize hd, hclass, Option.map_some, Option.bind_some, hedges, Listing.lookup_map_snd,
    transition?, hstate, Option.bind_some]

theorem isAccepting_minimize (hs : s < d.size) : d.minimize.dfa.isAccepting (d.classOf s) = d.isAccepting s := by
  obtain ⟨t, block, hclass, hmem, ht, hst⟩ := exists_first hd hs
  have hall : ∀ u ∈ t :: block, d.isAccepting u = d.isAccepting s := by
    intro u hu
    have hblock := List.mem_of_getElem? hclass
    have hu' := d.divides_classes.lt_size hblock hu
    exact ((together_classes_iff hd hu' hs).mp ⟨_, hblock, hu, hmem⟩).isAccepting_eq
  have hany : (t :: block).any d.isAccepting = d.isAccepting s := by
    cases hacc : d.isAccepting s with
    | true => exact List.any_eq_true.mpr ⟨s, hmem, hacc⟩
    | false =>
      rw [List.any_eq_false]
      intro u hu
      rw [hall u hu, hacc]
      decide
  rw [isAccepting, state_minimize hd, hclass]
  exact hany

/-- The minimized automaton walks as the source does. -/
theorem walk?_minimize (hs : s < d.size) (w : List Char) :
    d.minimize.dfa.walk? (d.classOf s) w = (d.walk? s w).map d.classOf := by
  induction w generalizing s with
  | nil => rfl
  | cons c w ih =>
    rw [walk?, walk?, transition?_minimize hd hs, Option.bind_map, Option.map_bind]
    cases ht : d.transition? s c with
    | none => rfl
    | some t => exact ih (hd.transition?_lt ht)

theorem map_isAccepting_minimize (hs : s < d.size) (w : List Char) :
    (d.minimize.dfa.walk? (d.classOf s) w).map d.minimize.dfa.isAccepting = (d.walk? s w).map d.isAccepting := by
  rw [walk?_minimize hd hs, Option.map_map]
  cases ht : d.walk? s w with
  | none => rfl
  | some t => exact congrArg some (isAccepting_minimize hd (hd.walk?_lt hs ht))

theorem accepts_minimize (w : List Char) : d.minimize.dfa.accepts w = d.accepts w := by
  have h := map_isAccepting_minimize hd hd.start_lt w
  have hany (o : Option Nat) (p : Nat → Bool) : o.any p = (o.map p).getD false := by
    cases o <;> rfl
  rw [accepts, accepts, start_minimize hd, hany, hany, h]

theorem named_minimize : d.minimize.dfa.Named := by
  intro i st hst
  rw [state_minimize hd] at hst
  obtain ⟨block, -, rfl⟩ := Option.map_eq_some_iff.mp hst
  rfl

theorem wellFormed_minimize : d.minimize.dfa.WellFormed := by
  have hstate {i : Nat} {st : State} (hst : d.minimize.dfa.states[i]? = some st) :
      ∃ (s : Nat) (source : State), d.states[s]? = some source ∧
        st.edges = source.edges.map fun e => (e.1, d.classOf e.2) := by
    have hi : i < d.minimize.dfa.size := (Array.getElem?_eq_some_iff.mp hst).1
    obtain ⟨s, block, hclass⟩ := exists_class hd hi
    have hs := d.divides_classes.lt_size (List.mem_of_getElem? hclass) List.mem_cons_self
    have hsource := Array.getElem?_eq_getElem hs
    rw [state_minimize hd, hclass] at hst
    obtain rfl := Option.some.inj hst
    refine ⟨s, _, hsource, ?_⟩
    rw [merged, List.head?_cons, Option.bind_some, hsource]
    rfl
  refine ⟨?_, ?_, ?_⟩
  · rw [start_minimize hd]
    exact classOf_lt hd hd.start_lt
  · intro i st hst
    obtain ⟨s, source, hsource, hedges⟩ := hstate hst
    rw [hedges, List.map_map]
    exact hd.sorted s source hsource
  · intro i st hst e he
    obtain ⟨s, source, hsource, hedges⟩ := hstate hst
    rw [hedges] at he
    obtain ⟨e', he', rfl⟩ := List.mem_map.mp he
    exact classOf_lt hd (hd.target_lt s source hsource e' he')

/-- No two states of the minimized automaton mean the same. -/
theorem reduced_minimize : d.minimize.dfa.Reduced := by
  intro i hi j hj h
  obtain ⟨s, hs, rfl⟩ := exists_classOf hd hi
  obtain ⟨t, ht, rfl⟩ := exists_classOf hd hj
  rw [classOf_eq_iff hd hs ht]
  intro w
  rw [← map_isAccepting_minimize hd hs, ← map_isAccepting_minimize hd ht]
  exact h w

theorem reached_minimize (h : ∀ s < d.size, ∃ w, d.walk? d.start w = some s) (hi : i < d.minimize.dfa.size) :
    ∃ w, d.minimize.dfa.walk? d.minimize.dfa.start w = some i := by
  obtain ⟨s, hs, rfl⟩ := exists_classOf hd hi
  obtain ⟨w, hw⟩ := h s hs
  refine ⟨w, ?_⟩
  rw [start_minimize hd, walk?_minimize hd hd.start_lt, hw, Option.map_some]

theorem trim_minimize (h : d.Trim) : d.minimize.dfa.Trim := by
  refine ⟨fun i => reached_minimize hd h.reached, ?_⟩
  intro i hi
  obtain ⟨s, hs, rfl⟩ := exists_classOf hd hi
  obtain ⟨w, t, hw, ht⟩ := h.leads s hs
  refine ⟨w, d.classOf t, ?_, ?_⟩
  · rw [walk?_minimize hd hs, hw, Option.map_some]
  · rw [isAccepting_minimize hd (hd.walk?_lt hs hw)]
    exact ht

/-- Classes are numbered by their first members, so the order in which words meet states is kept. -/
theorem accessOrdered_minimize (h : d.AccessOrdered) : d.minimize.dfa.AccessOrdered := by
  intro v j hj i hi
  rw [start_minimize hd, walk?_minimize hd hd.start_lt] at hj
  obtain ⟨t, ht, rfl⟩ := Option.map_eq_some_iff.mp hj
  have htlt := hd.walk?_lt hd.start_lt ht
  -- `s` is the first member of its class, so it comes before `t`, and words meet it before `t`.
  obtain ⟨s, block, hclass⟩ := exists_class hd (hi.trans (classOf_lt hd htlt))
  obtain ⟨first, block', hclass', hmem, -⟩ := exists_first hd htlt
  obtain ⟨u, hu, hus⟩ := h v t ht s (first_lt_of_lt hclass hclass' hi hmem)
  refine ⟨u, hu, ?_⟩
  rw [start_minimize hd, walk?_minimize hd hd.start_lt, hus, Option.map_some, classOf_eq hclass List.mem_cons_self]

end Minimize

end Dfa

end PatternAutomata
