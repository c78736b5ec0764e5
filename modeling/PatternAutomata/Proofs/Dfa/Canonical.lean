import Mathlib.Data.Fintype.Card
import PatternAutomata.Matcher
import PatternAutomata.Proofs.Dfa.Quotient
import PatternAutomata.Table.Export

namespace PatternAutomata

namespace Dfa

/-- Automata with nothing to spare: every state is of use, and no two mean the same. -/
structure Tight (d : Dfa) : Prop where
  wellFormed : d.WellFormed
  trim : d.Trim
  reduced : d.Reduced

structure Canonical (d : Dfa) : Prop extends Tight d where
  named : d.Named
  accessOrdered : d.AccessOrdered

theorem canonical_minimize {d : Dfa} (hd : d.WellFormed) (htrim : d.Trim) (hordered : d.AccessOrdered) :
    d.minimize.dfa.Canonical :=
  ⟨⟨wellFormed_minimize hd, trim_minimize hd htrim, reduced_minimize hd⟩, named_minimize hd,
    accessOrdered_minimize hd hordered⟩

/-- The automaton without the record of what its states stand for. -/
def plain (d : Dfa) : Dfa := { d with states := d.states.map fun s => { s with subset := [] } }

theorem size_plain (d : Dfa) : d.plain.size = d.size := Array.size_map

theorem start_plain (d : Dfa) : d.plain.start = d.start := rfl

theorem state_plain (d : Dfa) (i : Nat) : d.plain.states[i]?.map (fun s => (s.name, s.accepting, s.edges)) =
    d.states[i]?.map fun s => (s.name, s.accepting, s.edges) := by
  rw [plain, Array.getElem?_map, Option.map_map]
  rfl

theorem nameOf_plain (d : Dfa) (i : Nat) : d.plain.nameOf i = d.nameOf i := by
  rw [nameOf, nameOf, plain, Array.getElem?_map, Option.map_map]
  rfl

theorem table_plain (d : Dfa) : d.plain.table = d.table := by
  have hname : d.plain.nameOf = d.nameOf := by
    funext i
    exact d.nameOf_plain i
  unfold table
  rw [hname, plain, Array.toList_map, List.foldl_map]

theorem ofDfa_plain (d : Dfa) : Matcher.ofDfa d.plain = Matcher.ofDfa d := by
  unfold Matcher.ofDfa plain
  simp only [Array.map_map]
  rfl

variable {d e : Dfa} {u v w : List Char} {s t i j : Nat} {c : Char}

theorem accepts_append (hs : d.walk? d.start u = some s) (v : List Char) :
    d.accepts (u ++ v) = (d.walk? s v).any d.isAccepting := by
  rw [accepts, walk?_append, hs, Option.bind_some]

/-- A word is walked to the end exactly if some word with a way to acceptance begins with it. -/
theorem Trim.walk?_eq_none_iff (h : d.Trim) (hd : d.WellFormed) (hs : s < d.size) :
    d.walk? s u = none ↔ ∀ v, (d.walk? s (u ++ v)).any d.isAccepting = false := by
  constructor
  · intro hnone v
    rw [walk?_append, hnone]
    rfl
  · intro hall
    cases hu : d.walk? s u with
    | none => rfl
    | some t =>
      obtain ⟨v, t', hv, ht'⟩ := h.leads t (hd.walk?_lt hs hu)
      have hfalse := hall v
      rw [walk?_append, hu, Option.bind_some, hv] at hfalse
      have htrue : (some t').any d.isAccepting = true := ht'
      rw [htrue] at hfalse
      cases hfalse

/-- If every state is of use, states from which the same words are accepted also miss the same words. -/
theorem Tight.verdict_eq (hd : d.Tight) (he : e.Tight) (hs : s < d.size) (ht : t < e.size)
    (hall : ∀ w, (d.walk? s w).any d.isAccepting = (e.walk? t w).any e.isAccepting) (w : List Char) :
    (d.walk? s w).map d.isAccepting = (e.walk? t w).map e.isAccepting := by
  have hiff : d.walk? s w = none ↔ e.walk? t w = none := by
    rw [hd.trim.walk?_eq_none_iff hd.wellFormed hs, he.trim.walk?_eq_none_iff he.wellFormed ht]
    simp only [hall]
  cases hsw : d.walk? s w with
  | none => rw [hiff.mp hsw]; rfl
  | some s' =>
    cases htw : e.walk? t w with
    | none =>
      rw [hiff.mpr htw] at hsw
      cases hsw
    | some t' =>
      have h := hall w
      rw [hsw, htw] at h
      exact congrArg some h

/-- Words that meet in some automaton meet in every automaton of its language with nothing to spare. -/
theorem Tight.meet (he : e.Tight) (haccepts : ∀ w, d.accepts w = e.accepts w) (hu : d.walk? d.start u = some s)
    (hv : d.walk? d.start v = some s) (hu' : e.walk? e.start u = some i) (hv' : e.walk? e.start v = some j) :
    i = j := by
  have hi := he.wellFormed.walk?_lt he.wellFormed.start_lt hu'
  have hj := he.wellFormed.walk?_lt he.wellFormed.start_lt hv'
  -- Both words go on alike in the first automaton, so the second may not tell their ends apart.
  apply he.reduced i hi j hj
  apply he.verdict_eq he hi hj
  intro w
  calc
    (e.walk? i w).any e.isAccepting = e.accepts (u ++ w) := (accepts_append hu' w).symm
    _ = d.accepts (u ++ w) := (haccepts _).symm
    _ = d.accepts (v ++ w) := by rw [accepts_append hu, accepts_append hv]
    _ = e.accepts (v ++ w) := haccepts _
    _ = (e.walk? j w).any e.isAccepting := accepts_append hv' w

theorem exists_walk?_of_accepts_append (h : d.accepts (u ++ v) = true) :
    ∃ s < d.size, d.walk? d.start u = some s := by
  cases hs : d.walk? d.start u with
  | none =>
    rw [accepts, walk?_append, hs] at h
    cases h
  | some s =>
    rw [accepts_append hs] at h
    exact ⟨s, lt_size_of_accepting h, rfl⟩

/-- No automaton for the language has fewer states. -/
theorem Tight.size_le (hd : d.Tight) (haccepts : ∀ w, d.accepts w = e.accepts w) : d.size ≤ e.size := by
  -- A word to a state of the first automaton leads somewhere in the second, as it begins an accepted word.
  have hmeets : ∀ s : Fin d.size, ∃ i : Fin e.size, ∃ u,
      d.walk? d.start u = some s.val ∧ e.walk? e.start u = some i.val := by
    intro s
    obtain ⟨u, hu⟩ := hd.trim.reached s s.isLt
    obtain ⟨v, t, hv, ht⟩ := hd.trim.leads s s.isLt
    have haccepted : e.accepts (u ++ v) = true := by
      rw [← haccepts, accepts_append hu, hv]
      exact ht
    obtain ⟨i, hi, hui⟩ := exists_walk?_of_accepts_append haccepted
    exact ⟨⟨i, hi⟩, u, hu, hui⟩
  choose f hf using hmeets
  have hinj : Function.Injective f := by
    intro s t hst
    obtain ⟨u, hus, hui⟩ := hf s
    obtain ⟨v, hvt, hvi⟩ := hf t
    rw [← hst] at hvi
    exact Fin.ext (hd.meet (fun w => (haccepts w).symm) hui hvi hus hvt)
  simpa using Fintype.card_le_of_injective f hinj

section Unique

variable (hd : d.Canonical) (he : e.Canonical) (haccepts : ∀ w, d.accepts w = e.accepts w)
include hd he haccepts

/-- Automata of one language say the same of every word, also whether it is missing. -/
theorem Canonical.verdict_eq (w : List Char) :
    (d.walk? d.start w).map d.isAccepting = (e.walk? e.start w).map e.isAccepting :=
  hd.toTight.verdict_eq he.toTight hd.wellFormed.start_lt he.wellFormed.start_lt haccepts w

theorem Canonical.exists_walk? (hs : d.walk? d.start w = some s) : ∃ t, e.walk? e.start w = some t := by
  have hverdict := hd.verdict_eq he haccepts w
  rw [hs, Option.map_some] at hverdict
  obtain ⟨t, ht, -⟩ := Option.map_eq_some_iff.mp hverdict.symm
  exact ⟨t, ht⟩

/-- Words to two states in exchanged order would come before one another without end. -/
theorem Canonical.not_crossed (hst : s < i) (hst' : s < t) (hs : d.walk? d.start u = some s)
    (ht : e.walk? e.start u = some t) (v : List Char) :
    ¬ (d.walk? d.start v = some i ∧ e.walk? e.start v = some s) := by
  have hsym : ∀ w, e.accepts w = d.accepts w := fun w => (haccepts w).symm
  induction v using before_wf.transGen.induction with
  | _ v ih =>
    rintro ⟨hi, hi'⟩
    -- In the first automaton some `x` before `v` leads to `s`, and in the second some `y` before `x` does.
    obtain ⟨x, hx, hxs⟩ := hd.accessOrdered v i hi s hst
    obtain ⟨t', hxt⟩ := hd.exists_walk? he haccepts hxs
    obtain rfl : t' = t := he.meet haccepts hxs hs hxt ht
    obtain ⟨y, hy, hys⟩ := he.accessOrdered x t' hxt s hst'
    obtain ⟨i', hyi⟩ := he.exists_walk? hd hsym hys
    obtain rfl : i' = i := hd.meet hsym hys hi' hyi hi
    exact ih y (.tail (.single hy) hx) ⟨hyi, hys⟩

/-- A word leads to states of one number. -/
theorem Canonical.walk?_unique (hs : d.walk? d.start u = some s) (ht : e.walk? e.start u = some t) : s = t := by
  have hsym : ∀ w, e.accepts w = d.accepts w := fun w => (haccepts w).symm
  induction s using Nat.strong_induction_on generalizing u t with
  | _ s ih =>
    rcases Nat.lt_trichotomy s t with hlt | heq | hgt
    · -- The state `s` of the second automaton is met by words that lead past `s` in the first.
      have htlt := he.wellFormed.walk?_lt he.wellFormed.start_lt ht
      obtain ⟨v, hv⟩ := he.trim.reached s (hlt.trans htlt)
      obtain ⟨i, hi⟩ := he.exists_walk? hd hsym hv
      rcases Nat.lt_trichotomy i s with his | rfl | hsi
      · have := ih i his hi hv
        omega
      · exact he.meet haccepts hi hs hv ht
      · exact absurd ⟨hi, hv⟩ (hd.not_crossed he haccepts hsi hlt hs ht v)
    · exact heq
    · -- The first automaton has a word to `t`, on which by induction the second is in `t` too.
      have hslt := hd.wellFormed.walk?_lt hd.wellFormed.start_lt hs
      obtain ⟨v, hv⟩ := hd.trim.reached t (hgt.trans hslt)
      obtain ⟨j, hj⟩ := hd.exists_walk? he haccepts hv
      obtain rfl := ih t hgt hv hj
      exact (hd.meet hsym hj ht hv hs).symm

theorem Canonical.walk?_eq (w : List Char) : d.walk? d.start w = e.walk? e.start w := by
  have hverdict := hd.verdict_eq he haccepts w
  cases hs : d.walk? d.start w with
  | none =>
    rw [hs, Option.map_none] at hverdict
    exact (Option.map_eq_none_iff.mp hverdict.symm).symm
  | some s =>
    obtain ⟨t, ht⟩ := hd.exists_walk? he haccepts hs
    rw [ht, hd.walk?_unique he haccepts hs ht]

theorem Canonical.start_eq : d.start = e.start := Option.some.inj (hd.walk?_eq he haccepts [])

theorem Canonical.transition?_eq (hs : s < d.size) (c : Char) : d.transition? s c = e.transition? s c := by
  obtain ⟨w, hw⟩ := hd.trim.reached s hs
  have hnext := hd.walk?_eq he haccepts (w ++ [c])
  rwa [walk?_concat, walk?_concat, ← hd.walk?_eq he haccepts, hw, Option.bind_some, Option.bind_some] at hnext

theorem Canonical.isAccepting_eq (hs : s < d.size) : d.isAccepting s = e.isAccepting s := by
  obtain ⟨w, hw⟩ := hd.trim.reached s hs
  have hverdict := hd.verdict_eq he haccepts w
  rw [← hd.walk?_eq he haccepts, hw] at hverdict
  exact Option.some.inj hverdict

/-- The language determines a canonical automaton, but for what its states stand for. -/
theorem Canonical.plain_eq : d.plain = e.plain := by
  have hsym : ∀ w, e.accepts w = d.accepts w := fun w => (haccepts w).symm
  have hsize : d.size = e.size := le_antisymm (hd.size_le haccepts) (he.size_le hsym)
  have hstates : d.plain.states = e.plain.states := by
    apply Array.ext
    · show d.plain.size = e.plain.size
      rw [size_plain, size_plain, hsize]
    · intro i hi hi'
      rw [plain, Array.size_map] at hi hi'
      have hs := Array.getElem?_eq_getElem hi
      have ht := Array.getElem?_eq_getElem hi'
      have haccepting := hd.isAccepting_eq he haccepts hi
      -- Edges are listed by character, so they are known once each transition is.
      have hedges : d.states[i].edges = e.states[i].edges := by
        apply edges_ext (hd.wellFormed.sorted i _ hs) (he.wellFormed.sorted i _ ht)
        intro c
        have htransition := hd.transition?_eq he haccepts hi c
        rwa [transition?, transition?, hs, ht, Option.bind_some, Option.bind_some] at htransition
      have hname : d.states[i].name = e.states[i].name := by
        rw [hd.named i _ hs, he.named i _ ht]
      rw [isAccepting, isAccepting, hs, ht] at haccepting
      have haccepting : d.states[i].accepting = e.states[i].accepting := haccepting
      simp only [plain, Array.getElem_map, hname, haccepting, hedges]
  have hstart : d.start = e.start := hd.start_eq he haccepts
  calc
    d.plain = ⟨d.plain.states, d.start⟩ := rfl
    _ = ⟨e.plain.states, e.start⟩ := by rw [hstates, hstart]
    _ = e.plain := rfl

end Unique

end Dfa

end PatternAutomata
