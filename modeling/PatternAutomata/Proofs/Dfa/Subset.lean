import PatternAutomata.Stages
import PatternAutomata.Proofs.Dfa.Walk
import PatternAutomata.Proofs.Discovery
import PatternAutomata.Proofs.Nfa.Part

namespace PatternAutomata

namespace Nfa

variable {n : Nfa} {lo : Nat} {ids : List Nat} {i j t : Nat} {c : Char} {w : List Char}

theorem exists_edge_iff (h : n.Sound lo) (hi : lo ≤ i) :
    c ∈ ((n.state? i).map fun s => s.edges.keys.filterMap Label.char?).getD [] ↔ ∃ k, n.Edge i (.char c) k := by
  unfold Edge targets
  cases hs : n.state? i with
  | none => simp
  | some s =>
    rw [Option.map_some, Option.getD_some, List.mem_filterMap, Option.bind_some]
    constructor
    · rintro ⟨l, hl, hc⟩
      obtain rfl : l = .char c := by
        cases l with
        | empty => cases hc
        | char d => exact congrArg Label.char (Option.some.inj hc)
      obtain ⟨e, he, hel⟩ := List.mem_map.mp hl
      have hsome : (s.edges.entries.lookup (.char c)).isSome = true := by
        rw [List.lookup_isSome_iff]
        exact ⟨e, he, by rw [hel, beq_self_eq_true]⟩
      obtain ⟨ts, hts⟩ := Option.isSome_iff_exists.mp hsome
      -- A label is a character of the state only because it is never listed without a target.
      have hne := h.listed i s _ ts hi hs hts
      obtain ⟨k, hk⟩ := List.exists_mem_of_ne_nil ts hne
      have hget : s.edges.get? (.char c) = some ts := hts
      exact ⟨k, by rw [hget]; exact hk⟩
    · rintro ⟨k, hk⟩
      refine ⟨.char c, ?_, rfl⟩
      cases hget : s.edges.get? (.char c) with
      | none =>
        rw [hget] at hk
        cases hk
      | some ts =>
        have hmem : (Label.char c, ts) ∈ s.edges.entries := by
          have hlookup : s.edges.entries.lookup (.char c) = some ts := hget
          obtain ⟨before, after, heq, -⟩ := List.lookup_eq_some_iff.mp hlookup
          rw [heq]
          exact List.mem_append_right _ List.mem_cons_self
        exact List.mem_map_of_mem hmem

theorem step_ne_nil_iff : n.step ids c ≠ [] ↔ ∃ i ∈ ids, ∃ k, n.Edge i (.char c) k := by
  constructor
  · intro hne
    obtain ⟨j, hj⟩ := List.exists_mem_of_ne_nil _ hne
    obtain ⟨i, hi, k, hk, -⟩ := mem_step.mp hj
    exact ⟨i, hi, k, hk⟩
  · rintro ⟨i, hi, k, hk⟩
    exact List.ne_nil_of_mem (mem_step.mpr ⟨i, hi, k, hk, .nil k⟩)

/-- A set of states moves on the characters that lead somewhere, to where they lead. -/
theorem mem_moves (h : n.Sound lo) (hids : ∀ i ∈ ids, lo ≤ i) {edge : Char × List Nat} :
    edge ∈ n.moves ids ↔ n.step ids edge.1 ≠ [] ∧ edge.2 = n.step ids edge.1 := by
  rw [step_ne_nil_iff, moves, List.mem_map]
  simp only [mem_ascending, List.mem_flatMap]
  constructor
  · rintro ⟨c, ⟨i, hi, hc⟩, rfl⟩
    exact ⟨⟨i, hi, (exists_edge_iff h (hids i hi)).mp hc⟩, rfl⟩
  · rintro ⟨⟨i, hi, hc⟩, hset⟩
    exact ⟨edge.1, ⟨i, hi, (exists_edge_iff h (hids i hi)).mpr hc⟩, Prod.ext rfl hset.symm⟩

theorem moves_sorted (n : Nfa) (ids : List Nat) : ((n.moves ids).map Prod.fst).Pairwise (· < ·) := by
  rw [moves, List.map_map]
  have hid : (Prod.fst ∘ fun c => (c, n.step ids c)) = id := rfl
  rw [hid, List.map_id]
  exact ascending_sorted _

theorem le_of_mem_reach (h : n.Sound lo) : ∀ i ∈ n.reach w, lo ≤ i :=
  fun _ hi => h.le_of_route h.start_mem.1 (mem_reach.mp hi)

theorem start_mem_closure (n : Nfa) : n.start ∈ n.closure [n.start] :=
  mem_closure.mpr ⟨n.start, List.mem_singleton_self _, .nil _⟩

theorem explored_subsets (n : Nfa) : Expansion.Explored n.moves [n.closure [n.start]] n.subsets :=
  Expansion.explored_ofRoots _ _ _

def statesFrom (n : Nfa) (lo : Nat) : List Nat := (List.range' n.firstId n.size).filter (lo ≤ ·)

theorem mem_statesFrom : i ∈ n.statesFrom lo ↔ lo ≤ i ∧ n.firstId ≤ i ∧ i < n.firstId + n.size := by
  rw [statesFrom, List.mem_filter, List.mem_range'_1, decide_eq_true_eq, and_comm]

theorem length_statesFrom_le (n : Nfa) (lo : Nat) : (n.statesFrom lo).length ≤ n.size := by
  calc
    (n.statesFrom lo).length ≤ (List.range' n.firstId n.size).length := List.length_filter_le _ _
    _ = n.size := List.length_range'

/-- An increasing list of states is one of the sublists of all states. -/
theorem sublist_statesFrom (hsorted : ids.Pairwise (· < ·)) (hmem : ∀ i ∈ ids, i ∈ n.statesFrom lo) :
    ids ∈ (n.statesFrom lo).sublists := by
  rw [List.mem_sublists]
  apply List.sublist_of_subperm_of_pairwise _ hsorted (List.Pairwise.filter _ List.pairwise_lt_range')
  exact List.subperm_of_subset hsorted.nodup hmem

theorem rows_size_subsets (h : n.Sound lo) : n.subsets.rows.size = n.subsets.found.values.size := by
  -- All sets on the way are increasing lists of states from `lo` on, and there are at most `2 ^ size` of these.
  let U : Finset (List Nat) := (n.statesFrom lo).sublists.toFinset
  have hroot : ∀ ids ∈ [n.closure [n.start]], ids ∈ U := by
    intro ids hids
    obtain rfl := List.mem_singleton.mp hids
    rw [List.mem_toFinset]
    apply sublist_statesFrom (n.closure_sorted _)
    intro i hi
    rw [mem_statesFrom]
    exact h.mem_of_route h.start_mem (mem_reach (w := []).mp hi)
  have hnext : ∀ ids, ids ∈ U → ∀ edge ∈ n.moves ids, edge.2 ∈ U := by
    intro ids hids edge hedge
    have hlo : ∀ i ∈ ids, lo ≤ i := by
      intro i hi
      have hsublist := List.mem_sublists.mp (List.mem_toFinset.mp hids)
      exact (mem_statesFrom.mp (hsublist.subset hi)).1
    obtain ⟨-, hset⟩ := (mem_moves h hlo).mp hedge
    rw [hset, List.mem_toFinset]
    apply sublist_statesFrom (n.closure_sorted _)
    intro j hj
    obtain ⟨i, hi, k, hk, hroute⟩ := mem_step.mp hj
    rw [mem_statesFrom]
    exact h.mem_of_route (h.target i _ k (hlo i hi) hk) hroute
  have hcard : U.card ≤ Nat.pow 2 n.size := by
    calc
      U.card ≤ (n.statesFrom lo).sublists.length := List.toFinset_card_le _
      _ = Nat.pow 2 (n.statesFrom lo).length := List.length_sublists _
      _ ≤ Nat.pow 2 n.size := Nat.pow_le_pow_right (by decide) (n.length_statesFrom_le lo)
  unfold subsets
  exact Expansion.rows_size_ofRoots hroot hnext hcard

/-- The state at `i` of the deterministic automaton stands for the set `ids`. -/
def StandsFor (n : Nfa) (i : Nat) (ids : List Nat) : Prop := n.subsets.found.values[i]? = some ids

theorem StandsFor.unique {i j : Nat} (hi : n.StandsFor i ids) (hj : n.StandsFor j ids) : i = j :=
  n.subsets.found.index_unique hi hj rfl

/-- Every state stands for the set that some word leads to. -/
theorem StandsFor.exists_reach (h : n.Sound lo) (hi : n.StandsFor i ids) : ∃ w, n.reach w = ids ∧ ids ≠ [] := by
  induction i using Nat.strong_induction_on generalizing ids with
  | _ i ih =>
    rcases n.explored_subsets.origin i ids hi with hroot | ⟨j, b, -, hj, hb, edge, hedge, rfl⟩
    · obtain rfl := List.mem_singleton.mp hroot
      exact ⟨[], rfl, List.ne_nil_of_mem n.start_mem_closure⟩
    · obtain ⟨w, rfl, -⟩ := ih j hj hb
      obtain ⟨hne, hset⟩ := (mem_moves h (le_of_mem_reach h)).mp hedge
      rw [hset, ← reach_concat]
      rw [← reach_concat] at hne
      exact ⟨w ++ [edge.1], rfl, hne⟩

theorem StandsFor.le_of_mem (h : n.Sound lo) (hi : n.StandsFor i ids) : ∀ j ∈ ids, lo ≤ j := by
  obtain ⟨w, rfl, -⟩ := hi.exists_reach h
  exact le_of_mem_reach h

theorem standsFor_number (h : ids ∈ n.subsets.found.numbers) : n.StandsFor (n.subsets.found.number ids) ids := by
  obtain ⟨i, a, ha, rfl⟩ := n.subsets.found.mem_numbers_iff.mp h
  rw [StandsFor, n.subsets.found.number_eq ha]
  exact ha

theorem standsFor_start (n : Nfa) : n.StandsFor 0 (n.closure [n.start]) := by
  have hmet := n.explored_subsets.roots_met _ (List.mem_singleton_self _)
  obtain ⟨i, a, ha, -⟩ := n.subsets.found.mem_numbers_iff.mp hmet
  have hpos : 0 < n.subsets.found.values.size := by
    have := (Array.getElem?_eq_some_iff.mp ha).1
    omega
  have hfirst := Array.getElem?_eq_getElem hpos
  rcases n.explored_subsets.origin 0 _ hfirst with hroot | ⟨j, b, -, hj, -⟩
  · rw [StandsFor, hfirst, List.mem_singleton.mp hroot]
  · omega

theorem size_toDfa (n : Nfa) : n.toDfa.size = n.subsets.found.values.size := by
  rw [toDfa, Dfa.size, Array.size_mapIdx]

theorem StandsFor.lt_size (hi : n.StandsFor i ids) : i < n.toDfa.size := by
  rw [size_toDfa]
  exact (Array.getElem?_eq_some_iff.mp hi).1

theorem StandsFor.lt_rows (h : n.Sound lo) (hi : n.StandsFor i ids) : i < n.subsets.rows.size := by
  rw [rows_size_subsets h, ← size_toDfa]
  exact hi.lt_size

theorem exists_standsFor (hi : i < n.toDfa.size) : ∃ ids, n.StandsFor i ids := by
  rw [size_toDfa] at hi
  exact ⟨_, Array.getElem?_eq_getElem hi⟩

theorem state_toDfa (n : Nfa) (i : Nat) : n.toDfa.states[i]? = n.subsets.found.values[i]?.map fun ids =>
    ⟨Dfa.nameAt i, ids, ids.contains n.terminal, n.subsets.rows[i]?.getD []⟩ := by
  rw [toDfa, Array.getElem?_mapIdx]

/-- The edges of a state that has been expanded are the moves of its set. -/
theorem StandsFor.row (hi : n.StandsFor i ids) (hrow : i < n.subsets.rows.size) :
    n.subsets.rows[i]?.getD [] = (n.moves ids).map fun edge => (edge.1, n.subsets.found.number edge.2) := by
  rw [n.explored_subsets.row_eq i ids hrow hi]
  rfl

theorem StandsFor.state (h : n.Sound lo) (hi : n.StandsFor i ids) :
    n.toDfa.states[i]? = some ⟨Dfa.nameAt i, ids, ids.contains n.terminal,
      (n.moves ids).map fun edge => (edge.1, n.subsets.found.number edge.2)⟩ := by
  rw [state_toDfa, show n.subsets.found.values[i]? = some ids from hi, Option.map_some, hi.row (hi.lt_rows h)]

theorem StandsFor.isAccepting (h : n.Sound lo) (hi : n.StandsFor i ids) :
    n.toDfa.isAccepting i = ids.contains n.terminal := by
  rw [Dfa.isAccepting, hi.state h]
  rfl

theorem StandsFor.edges_sorted (ids : List Nat) :
    (((n.moves ids).map fun edge => (edge.1, n.subsets.found.number edge.2)).map Prod.fst).Pairwise (· < ·) := by
  rw [List.map_map]
  exact n.moves_sorted ids

theorem StandsFor.met (h : n.Sound lo) (hi : n.StandsFor i ids) {edge : Char × List Nat} (hedge : edge ∈ n.moves ids) :
    n.StandsFor (n.subsets.found.number edge.2) edge.2 :=
  standsFor_number (n.explored_subsets.met i ids (hi.lt_rows h) hi edge hedge)

/-- On a character the state for a set goes to the state for the next set, if that is not empty. -/
theorem StandsFor.transition?_eq_some_iff (h : n.Sound lo) (hi : n.StandsFor i ids) :
    n.toDfa.transition? i c = some t ↔ n.step ids c ≠ [] ∧ n.StandsFor t (n.step ids c) := by
  have hids := hi.le_of_mem h
  rw [Dfa.transition?, hi.state h, Option.bind_some, Dfa.lookup_eq_some_iff (StandsFor.edges_sorted ids), List.mem_map]
  constructor
  · rintro ⟨edge, hedge, heq⟩
    obtain ⟨rfl, rfl⟩ := Prod.mk.inj heq
    obtain ⟨hne, hset⟩ := (mem_moves h hids).mp hedge
    have hmet := hi.met h hedge
    rw [hset] at hmet ⊢
    exact ⟨hne, hmet⟩
  · rintro ⟨hne, ht⟩
    have hedge : (c, n.step ids c) ∈ n.moves ids := (mem_moves h hids).mpr ⟨hne, rfl⟩
    refine ⟨(c, n.step ids c), hedge, ?_⟩
    rw [Prod.mk.injEq]
    exact ⟨rfl, (hi.met h hedge).unique ht⟩

theorem reach_concat_ne_nil (hne : n.reach (w ++ [c]) ≠ []) : n.reach w ≠ [] := by
  obtain ⟨j, hj⟩ := List.exists_mem_of_ne_nil _ hne
  rw [reach_concat, mem_step] at hj
  obtain ⟨i, hi, -⟩ := hj
  exact List.ne_nil_of_mem hi

theorem exists_standsFor_reach (h : n.Sound lo) (hne : n.reach w ≠ []) : ∃ t, n.StandsFor t (n.reach w) := by
  induction w using List.reverseRecOn with
  | nil => exact ⟨0, n.standsFor_start⟩
  | append_singleton w c ih =>
    obtain ⟨s, hs⟩ := ih (reach_concat_ne_nil hne)
    rw [reach_concat] at hne ⊢
    have hedge : (c, n.step (n.reach w) c) ∈ n.moves (n.reach w) := (mem_moves h (le_of_mem_reach h)).mpr ⟨hne, rfl⟩
    exact ⟨_, hs.met h hedge⟩

/-- A word leads to the state for the set that it leads to, and is missing if that set is empty. -/
theorem walk?_toDfa_eq_some_iff (h : n.Sound lo) :
    n.toDfa.walk? n.toDfa.start w = some t ↔ n.reach w ≠ [] ∧ n.StandsFor t (n.reach w) := by
  -- By the last character: the set for a word is a step from the set for the word without it.
  induction w using List.reverseRecOn generalizing t with
  | nil =>
    have hstart : n.reach [] = n.closure [n.start] := rfl
    have hwalk : n.toDfa.walk? n.toDfa.start [] = some 0 := rfl
    rw [hstart, hwalk, Option.some.injEq, and_iff_right (List.ne_nil_of_mem n.start_mem_closure)]
    constructor
    · rintro rfl
      exact n.standsFor_start
    · intro ht
      exact n.standsFor_start.unique ht
  | append_singleton w c ih =>
    rw [Dfa.walk?_concat, Option.bind_eq_some_iff]
    constructor
    · rintro ⟨s, hs, hst⟩
      obtain ⟨-, hids⟩ := ih.mp hs
      rw [reach_concat]
      exact (hids.transition?_eq_some_iff h).mp hst
    · rintro ⟨hne, ht⟩
      have hne' := reach_concat_ne_nil hne
      rw [reach_concat] at hne ht
      obtain ⟨s, hs⟩ := exists_standsFor_reach h hne'
      exact ⟨s, ih.mpr ⟨hne', hs⟩, (hs.transition?_eq_some_iff h).mpr ⟨hne, ht⟩⟩

theorem walk?_toDfa_eq_none_iff (h : n.Sound lo) : n.toDfa.walk? n.toDfa.start w = none ↔ n.reach w = [] := by
  constructor
  · intro hwalk
    by_contra hne
    obtain ⟨t, ht⟩ := exists_standsFor_reach h hne
    rw [(walk?_toDfa_eq_some_iff h).mpr ⟨hne, ht⟩] at hwalk
    cases hwalk
  · intro hempty
    cases hwalk : n.toDfa.walk? n.toDfa.start w with
    | none => rfl
    | some t => exact absurd hempty ((walk?_toDfa_eq_some_iff h).mp hwalk).1

theorem accepts_toDfa (h : n.Sound lo) (w : List Char) : n.toDfa.accepts w = n.accepts w := by
  rw [Dfa.accepts, accepts]
  cases hwalk : n.toDfa.walk? n.toDfa.start w with
  | none =>
    rw [(walk?_toDfa_eq_none_iff h).mp hwalk]
    rfl
  | some t =>
    obtain ⟨-, ht⟩ := (walk?_toDfa_eq_some_iff h).mp hwalk
    exact ht.isAccepting h

/-- Whatever the nondeterministic automaton, the construction makes a well formed one. -/
theorem wellFormed_toDfa (n : Nfa) : n.toDfa.WellFormed := by
  -- A state has the edges of its row, and a state without a row has none.
  have hstate {i : Nat} {s : Dfa.State} (hs : n.toDfa.states[i]? = some s) : s.edges = [] ∨
      ∃ ids, n.StandsFor i ids ∧ i < n.subsets.rows.size ∧
        s.edges = (n.moves ids).map fun edge => (edge.1, n.subsets.found.number edge.2) := by
    rw [state_toDfa] at hs
    obtain ⟨ids, hids, rfl⟩ := Option.map_eq_some_iff.mp hs
    by_cases hrow : i < n.subsets.rows.size
    · exact .inr ⟨ids, hids, hrow, StandsFor.row hids hrow⟩
    · refine .inl ?_
      rw [Array.getElem?_eq_none (Nat.le_of_not_lt hrow)]
      rfl
  refine ⟨n.standsFor_start.lt_size, ?_, ?_⟩
  · intro i s hs
    rcases hstate hs with hedges | ⟨ids, -, -, hedges⟩
    · rw [hedges]
      exact List.Pairwise.nil
    · rw [hedges]
      exact StandsFor.edges_sorted ids
  · intro i s hs e he
    rcases hstate hs with hedges | ⟨ids, hids, hrow, hedges⟩
    · rw [hedges] at he
      cases he
    · rw [hedges] at he
      obtain ⟨edge, hedge, rfl⟩ := List.mem_map.mp he
      exact (standsFor_number (n.explored_subsets.met i ids hrow hids edge hedge)).lt_size

theorem subset_toDfa {s : Dfa.State} (hs : n.toDfa.states[i]? = some s) : n.StandsFor i s.subset := by
  rw [state_toDfa] at hs
  obtain ⟨ids, hids, rfl⟩ := Option.map_eq_some_iff.mp hs
  exact hids

/-- The construction numbers states breadth first, along edges in the order of their characters. -/
theorem discovered_toDfa (h : n.Sound lo) : n.toDfa.Discovered := by
  intro i c t ht s hs
  obtain ⟨ids, hids⟩ := exists_standsFor (n := n) (Dfa.lt_size_of_transition? ht)
  obtain ⟨hne, hset⟩ := (hids.transition?_eq_some_iff h).mp ht
  have hnumber {j : Nat} {js : List Nat} (hj : n.StandsFor j js) {edge : Char × List Nat} (hedge : edge ∈ n.moves js)
      (heq : n.subsets.found.number edge.2 = s) : n.toDfa.transition? j edge.1 = some s := by
    rw [hj.transition?_eq_some_iff h, ← heq]
    obtain ⟨hne, hto⟩ := (mem_moves h (hj.le_of_mem h)).mp hedge
    rw [← hto]
    exact ⟨hto ▸ hne, hj.met h hedge⟩
  have hedge : (c, n.step ids c) ∈ n.moves ids := (mem_moves h (hids.le_of_mem h)).mpr ⟨hne, rfl⟩
  obtain ⟨before, after, hsplit⟩ := List.append_of_mem hedge
  have hst : s < n.subsets.found.number (n.step ids c) := by
    rw [n.subsets.found.number_eq hset]
    exact hs
  -- The set for `s` was met before the one for the target: as the root, or on an edge met before this one.
  rcases n.explored_subsets.first_met i ids (hids.lt_rows h) hids before _ after hsplit s hst with
    ⟨r, hr, heq⟩ | ⟨j, js, hj, hjs, edge, hmem, heq⟩ | ⟨edge, hmem, heq⟩
  · refine .inl ?_
    obtain rfl := List.mem_singleton.mp hr
    rw [← heq]
    exact n.subsets.found.number_eq n.standsFor_start
  · exact .inr (.inl ⟨j, edge.1, hj, hnumber hjs hmem heq⟩)
  · have hmem' : edge ∈ n.moves ids := by
      rw [hsplit]
      exact List.mem_append_left _ hmem
    have hsorted := n.moves_sorted ids
    rw [hsplit, List.map_append, List.map_cons, List.pairwise_append] at hsorted
    have hlt := hsorted.2.2 edge.1 (List.mem_map_of_mem hmem) c List.mem_cons_self
    exact .inr (.inr ⟨edge.1, hlt, hnumber hids hmem' heq⟩)

theorem reached_toDfa (h : n.Sound lo) (hi : i < n.toDfa.size) : ∃ w, n.toDfa.walk? n.toDfa.start w = some i := by
  obtain ⟨ids, hids⟩ := exists_standsFor hi
  obtain ⟨w, rfl, hne⟩ := hids.exists_reach h
  exact ⟨w, (walk?_toDfa_eq_some_iff h).mpr ⟨hne, hids⟩⟩

/-- If all states of the closed part lead to the terminal, then every set that is reached leads to acceptance. -/
theorem trim_toDfa (h : n.Sound lo)
    (hleads : ∀ i, lo ≤ i → i < n.firstId + n.size → ∃ w, Route n.Edge i w n.terminal) : n.toDfa.Trim := by
  refine ⟨fun s hs => reached_toDfa h hs, ?_⟩
  intro s hs
  obtain ⟨u, hu⟩ := reached_toDfa h hs
  obtain ⟨hne, -⟩ := (walk?_toDfa_eq_some_iff h).mp hu
  -- The set is not empty, and one member with a way to the terminal is enough.
  obtain ⟨i, hi⟩ := List.exists_mem_of_ne_nil _ hne
  have hroute := mem_reach.mp hi
  have hstate := h.mem_of_route h.start_mem hroute
  obtain ⟨v, hv⟩ := hleads i hstate.1 hstate.2.2
  have hend : n.terminal ∈ n.reach (u ++ v) := mem_reach.mpr (hroute.trans hv)
  obtain ⟨t, ht⟩ := exists_standsFor_reach h (List.ne_nil_of_mem hend)
  have hwalk := (walk?_toDfa_eq_some_iff h).mpr ⟨List.ne_nil_of_mem hend, ht⟩
  rw [Dfa.walk?_append, hu] at hwalk
  refine ⟨v, t, hwalk, ?_⟩
  rw [ht.isAccepting h, List.contains_iff_mem]
  exact hend

end Nfa

end PatternAutomata
