import PatternAutomata.Proofs.Dfa.Quotient
import PatternAutomata.Proofs.Dfa.Subset

namespace PatternAutomata

namespace Dfa

/-- The names that come up, in the order of their first mention. -/
def mentioned (start : String) (accepting : List String) (edges : List NamedEdge) : List String :=
  (start :: edges.flatMap (fun e => [e.source, e.target]) ++ accepting).eraseDups

def edgesFrom (names : List String) (edges : List NamedEdge) (name : String) : List (Char × Nat) :=
  let own := edges.filter (·.source == name)
  (ascending (own.map (·.symbol))).filterMap fun c =>
    (own.reverse.find? (·.symbol == c)).map fun e => (c, names.idxOf e.target)

variable {start name : String} {accepting names : List String} {edges : List NamedEdge}

theorem start_mem_mentioned : start ∈ mentioned start accepting edges := by
  simp [mentioned]

theorem target_mem_mentioned {e : NamedEdge} (he : e ∈ edges) : e.target ∈ mentioned start accepting edges := by
  rw [mentioned, List.mem_eraseDups]
  apply List.mem_append_left
  apply List.mem_cons_of_mem
  exact List.mem_flatMap.mpr ⟨e, he, by simp⟩

theorem edgesFrom_sorted : ((edgesFrom names edges name).map Prod.fst).Pairwise (· < ·) := by
  rw [edgesFrom, List.pairwise_map, List.pairwise_filterMap]
  apply (ascending_sorted _).imp
  intro c c' hlt e he e' he'
  obtain ⟨_, -, rfl⟩ := Option.map_eq_some_iff.mp he
  obtain ⟨_, -, rfl⟩ := Option.map_eq_some_iff.mp he'
  exact hlt

/-- An edge between numbers comes from a named one. -/
theorem exists_named_of_mem_edgesFrom {e : Char × Nat} (he : e ∈ edgesFrom names edges name) :
    ∃ e' ∈ edges, e'.symbol = e.1 ∧ e.2 = names.idxOf e'.target := by
  obtain ⟨c, -, hc⟩ := List.mem_filterMap.mp he
  obtain ⟨e', he', rfl⟩ := Option.map_eq_some_iff.mp hc
  have hmem := List.mem_reverse.mp (List.mem_of_find?_eq_some he')
  have hsymbol : (e'.symbol == c) = true := by
    have := List.find?_some he'
    exact this
  exact ⟨e', (List.mem_filter.mp hmem).1, beq_iff_eq.mp hsymbol, rfl⟩

theorem ofEdges_eq : ofEdges start accepting edges =
    ⟨((mentioned start accepting edges).map fun name =>
      ⟨name, [], accepting.contains name, edgesFrom (mentioned start accepting edges) edges name⟩).toArray, 0⟩ := rfl

theorem size_ofEdges : (ofEdges start accepting edges).size = (mentioned start accepting edges).length := by
  rw [ofEdges_eq, size, List.size_toArray, List.length_map]

theorem edges_ofEdges {i : Nat} {s : State} (hs : (ofEdges start accepting edges).states[i]? = some s) :
    ∃ name, s.edges = edgesFrom (mentioned start accepting edges) edges name := by
  rw [ofEdges_eq, List.getElem?_toArray, List.getElem?_map] at hs
  obtain ⟨name, -, rfl⟩ := Option.map_eq_some_iff.mp hs
  exact ⟨name, rfl⟩

theorem wellFormed_ofEdges (start : String) (accepting : List String) (edges : List NamedEdge) :
    (ofEdges start accepting edges).WellFormed := by
  refine ⟨?_, ?_, ?_⟩
  · rw [size_ofEdges]
    exact List.length_pos_of_mem start_mem_mentioned
  · intro i s hs
    obtain ⟨name, hname⟩ := edges_ofEdges hs
    rw [hname]
    exact edgesFrom_sorted
  · intro i s hs e he
    obtain ⟨name, hname⟩ := edges_ofEdges hs
    rw [hname] at he
    obtain ⟨e', he', -, htarget⟩ := exists_named_of_mem_edgesFrom he
    rw [htarget, size_ofEdges]
    exact List.idxOf_lt_length_iff.mpr (target_mem_mentioned he')

/-- The automata that can be made: without states, from a nondeterministic one, from named edges, and by
minimizing one that was made. -/
inductive Constructed : Dfa → Prop
  | empty : Constructed .empty
  | toDfa (n : Nfa) : Constructed n.toDfa
  | ofEdges (start : String) (accepting : List String) (edges : List NamedEdge) :
      Constructed (.ofEdges start accepting edges)
  | minimize {d : Dfa} (h : Constructed d) : Constructed d.minimize.dfa

variable {d : Dfa}

/-- The one state that is left when an automaton without states is minimized. -/
def lone : Dfa := ⟨#[⟨nameAt 0, [], false, []⟩], 0⟩

theorem minimize_of_size_eq_zero (h : d.size = 0) : d.minimize = ⟨lone, [[]]⟩ := if_pos h

theorem state_lone {i : Nat} {s : State} (hs : lone.states[i]? = some s) : i = 0 ∧ s = ⟨nameAt 0, [], false, []⟩ := by
  obtain ⟨hi, rfl⟩ := Array.getElem?_eq_some_iff.mp hs
  obtain rfl : i = 0 := by
    have hsize : lone.states.size = 1 := rfl
    omega
  exact ⟨rfl, rfl⟩

theorem wellFormed_lone : lone.WellFormed := by
  refine ⟨by decide, ?_, ?_⟩
  · intro i s hs
    rw [(state_lone hs).2]
    exact List.Pairwise.nil
  · intro i s hs e he
    rw [(state_lone hs).2] at he
    cases he

theorem accepts_lone (w : List Char) : lone.accepts w = false := by
  cases w <;> rfl

theorem accepts_of_size_eq_zero (h : d.size = 0) (w : List Char) : d.accepts w = false := by
  by_contra haccepts
  have hlt : d.start < d.size := lt_size_of_accepting ((Bool.not_eq_false _).mp haccepts)
  omega

/-- Minimizing leaves a state even if there was none. -/
theorem wellFormed_minimize_of_imp (h : 0 < d.size → d.WellFormed) : d.minimize.dfa.WellFormed := by
  rcases Nat.eq_zero_or_pos d.size with hsize | hpos
  · rw [minimize_of_size_eq_zero hsize]
    exact wellFormed_lone
  · exact wellFormed_minimize (h hpos)

/-- What can be made is well formed as soon as it has a state. -/
theorem Constructed.wellFormed (h : d.Constructed) (hpos : 0 < d.size) : d.WellFormed := by
  induction h with
  | empty => exact absurd hpos (by decide)
  | toDfa n => exact n.wellFormed_toDfa
  | ofEdges start accepting edges => exact wellFormed_ofEdges start accepting edges
  | minimize _ ih => exact wellFormed_minimize_of_imp ih

theorem Constructed.wellFormed_minimal (h : d.Constructed) : d.minimize.dfa.WellFormed :=
  wellFormed_minimize_of_imp h.wellFormed

theorem Constructed.accepts_minimal (h : d.Constructed) (w : List Char) : d.minimize.dfa.accepts w = d.accepts w := by
  rcases Nat.eq_zero_or_pos d.size with hsize | hpos
  · rw [accepts_of_size_eq_zero hsize, minimize_of_size_eq_zero hsize, accepts_lone]
  · exact accepts_minimize (h.wellFormed hpos) w

end Dfa

/-- The minimized automaton stands for `d`: for every state of `d` it has one that accepts alike and leads, on each
character, to the state for the successor or nowhere. -/
structure Minimal.Represents (m : Minimal) (d : Dfa) : Prop where
  state : ∀ s < d.size, ∃ b < m.dfa.size, m.blockOf? s = some b
  accepting : ∀ s < d.size, ∀ b, m.blockOf? s = some b → m.dfa.isAccepting b = d.isAccepting s
  successor : ∀ s < d.size, ∀ b, m.blockOf? s = some b → ∀ c t, d.transition? s c = some t →
    ∃ b', m.blockOf? t = some b' ∧ m.dfa.transition? b c = some b'
  missing : ∀ s < d.size, ∀ b, m.blockOf? s = some b → ∀ c, m.dfa.transition? b c = none ↔ d.transition? s c = none
  start : 0 < d.size → m.blockOf? d.start = some m.dfa.start
  accepts : ∀ w, m.dfa.accepts w = d.accepts w

/-- The blocks sort the states of `d` by what words do from there. Each state is in one block, the blocks come in the
order of their smallest members, and states share a block if no word tells them apart. -/
structure Minimal.Sorts (m : Minimal) (d : Dfa) : Prop where
  nonempty : ∀ block ∈ m.blocks, block ≠ []
  cover : m.blocks.flatten.Perm (List.range d.size)
  ordered : m.blocks.Pairwise fun block later => ∃ s ∈ block, ∀ t ∈ later, s < t
  first : m.blockOf? 0 = some 0 ∧ m.dfa.states[0]?.map (·.name) = some "S1"
  exact : ∀ s < d.size, ∀ t < d.size, (∃ block ∈ m.blocks, s ∈ block ∧ t ∈ block) ↔ d.Indistinguishable s t

namespace Dfa

variable {d : Dfa} {s t : Nat}

/-- Minimizing keeps what every state means, and so the language. -/
theorem Constructed.represents_minimize (h : d.Constructed) : d.minimize.Represents d := by
  -- Without states there is nothing to stand for, and the one state that is made rejects.
  rcases Nat.eq_zero_or_pos d.size with hsize | hpos
  · refine ⟨?_, ?_, ?_, ?_, ?_, ?_⟩
    · omega
    · omega
    · omega
    · omega
    · omega
    · intro w
      rw [accepts_of_size_eq_zero hsize, minimize_of_size_eq_zero hsize, accepts_lone]
  · have hd := h.wellFormed hpos
    have hblock : ∀ s < d.size, ∀ b, d.minimize.blockOf? s = some b → d.classOf s = b := by
      intro s hs b hb
      rw [blockOf?_minimize hd hs] at hb
      exact Option.some.inj hb
    refine ⟨?_, ?_, ?_, ?_, ?_, ?_⟩
    · intro s hs
      exact ⟨d.classOf s, classOf_lt hd hs, blockOf?_minimize hd hs⟩
    · intro s hs b hb
      obtain rfl := hblock s hs b hb
      exact isAccepting_minimize hd hs
    · intro s hs b hb c t ht
      obtain rfl := hblock s hs b hb
      refine ⟨d.classOf t, blockOf?_minimize hd (hd.transition?_lt ht), ?_⟩
      rw [transition?_minimize hd hs, ht, Option.map_some]
    · intro s hs b hb c
      obtain rfl := hblock s hs b hb
      rw [transition?_minimize hd hs, Option.map_eq_none_iff]
    · intro _
      rw [blockOf?_minimize hd hd.start_lt, start_minimize hd]
    · exact accepts_minimize hd

/-- The state `x` is never entered, `dead` leads nowhere, and the automaton has been minimized before. -/
theorem Constructed.represents_minimize_of_stray_states : ∃ d : Dfa,
    d = (Dfa.ofEdges "p" ["q"] [⟨"p", 'a', "q"⟩, ⟨"x", 'b', "q"⟩, ⟨"q", 'c', "dead"⟩]).minimize.dfa ∧
      d.Constructed ∧ d.minimize.Represents d := by
  have h (start : String) (accepting : List String) (edges : List NamedEdge) :
      (Dfa.ofEdges start accepting edges).minimize.dfa.Constructed := .minimize (.ofEdges start accepting edges)
  exact ⟨_, rfl, h .., (h ..).represents_minimize⟩

/-- The first members of the blocks increase. -/
theorem ordered_classes (d : Dfa) : d.classes.Pairwise fun block later => ∃ s ∈ block, ∀ t ∈ later, s < t := by
  rw [List.pairwise_iff_getElem]
  intro i j hi hj hij
  have hclass := List.getElem?_eq_getElem hi
  cases hblock : d.classes[i] with
  | nil => exact absurd hblock (d.divides_classes.nonempty _ (List.getElem_mem hi))
  | cons s rest =>
    rw [hblock] at hclass
    refine ⟨s, List.mem_cons_self, ?_⟩
    intro t ht
    exact first_lt_of_lt hclass (List.getElem?_eq_getElem hj) hij ht

/-- No other class has a member before the state 0. -/
theorem classOf_zero (hd : d.WellFormed) : d.classOf 0 = 0 := by
  by_contra hne
  have hpos : 0 < d.size := Nat.zero_lt_of_lt hd.start_lt
  obtain ⟨s, block, hclass⟩ := exists_class hd (Nat.zero_lt_of_lt (classOf_lt hd hpos))
  obtain ⟨t, block', hclass', hmem, -⟩ := exists_first hd hpos
  have := first_lt_of_lt hclass hclass' (Nat.pos_of_ne_zero hne) hmem
  omega

/-- Minimizing sorts the states exactly by what words do from them. -/
theorem Constructed.sorts_minimize (h : d.Constructed) (hpos : 0 < d.size) : d.minimize.Sorts d := by
  have hd := h.wellFormed hpos
  have hfirst : d.minimize.blockOf? 0 = some 0 := by
    rw [blockOf?_minimize hd hpos, classOf_zero hd]
  have hname : d.minimize.dfa.states[0]?.map (·.name) = some "S1" := by
    have hlt : 0 < d.minimize.dfa.size := Nat.zero_lt_of_lt (classOf_lt hd hpos)
    have hget := Array.getElem?_eq_getElem hlt
    rw [hget, Option.map_some, named_minimize hd 0 _ hget]
    decide
  refine ⟨?_, ?_, ?_, ⟨hfirst, hname⟩, ?_⟩
  · rw [blocks_minimize hd]
    exact d.divides_classes.nonempty
  · rw [blocks_minimize hd]
    exact d.divides_classes.perm
  · rw [blocks_minimize hd]
    exact d.ordered_classes
  · rw [blocks_minimize hd]
    intro s hs t ht
    exact together_classes_iff hd hs ht

/-- The states `q` and `t` do the same, and so does `x`, which is never entered. -/
theorem Constructed.sorts_minimize_of_equal_branches : ∃ d : Dfa,
    d = .ofEdges "p" ["r", "s"] [⟨"p", 'a', "q"⟩, ⟨"p", 'b', "t"⟩, ⟨"q", 'c', "r"⟩, ⟨"t", 'c', "s"⟩, ⟨"x", 'c', "s"⟩] ∧
      d.Constructed ∧ 0 < d.size ∧ d.minimize.Sorts d := by
  have h (start : String) (accepting : List String) (edges : List NamedEdge) :
      (Dfa.ofEdges start accepting edges).Constructed := .ofEdges start accepting edges
  have hpos (start : String) (accepting : List String) (edges : List NamedEdge) :
      0 < (Dfa.ofEdges start accepting edges).size := (wellFormed_ofEdges start accepting edges).start_lt
  exact ⟨_, rfl, h .., hpos .., (h ..).sorts_minimize (hpos ..)⟩

end Dfa

end PatternAutomata
