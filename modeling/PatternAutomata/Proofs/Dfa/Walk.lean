import Mathlib.Data.Char
import Mathlib.Data.List.Induction
import Mathlib.Data.List.Shortlex
import Mathlib.Data.List.Sort
import PatternAutomata.Dfa
import PatternAutomata.Listing

namespace PatternAutomata

namespace Dfa

/-- Among edges by increasing character there is one for each character. -/
theorem lookup_eq_some_iff {edges : List (Char × Nat)} (h : (edges.map Prod.fst).Pairwise (· < ·)) {c : Char}
    {t : Nat} :
    edges.lookup c = some t ↔ (c, t) ∈ edges := by
  induction edges with
  | nil => simp
  | cons e edges ih =>
    obtain ⟨hlt, hrest⟩ := List.pairwise_cons.mp h
    rw [Listing.lookup_cons, List.mem_cons, Prod.ext_iff]
    by_cases hc : c = e.1
    · have hnot : (c, t) ∉ edges := by
        intro hmem
        have hself := hlt c (List.mem_map_of_mem hmem)
        rw [← hc] at hself
        exact lt_irrefl c hself
      rw [if_pos hc, or_iff_left hnot, Option.some.injEq]
      simp [hc, eq_comm]
    · rw [if_neg hc, ih hrest, or_iff_right fun h => hc h.1]

/-- Edges in order are determined by where each character leads. -/
theorem edges_ext {edges edges' : List (Char × Nat)} (h : (edges.map Prod.fst).Pairwise (· < ·))
    (h' : (edges'.map Prod.fst).Pairwise (· < ·)) (hlookup : ∀ c, edges.lookup c = edges'.lookup c) :
    edges = edges' := by
  have hmem : ∀ e, e ∈ edges ↔ e ∈ edges' := by
    intro e
    rw [← lookup_eq_some_iff h, ← lookup_eq_some_iff h', hlookup]
  have : Std.Irrefl fun e e' : Char × Nat => e.1 < e'.1 := ⟨fun e => lt_irrefl e.1⟩
  exact (List.pairwise_map.mp h).eq_of_mem_iff (List.pairwise_map.mp h') hmem

variable {d : Dfa}

theorem walk?_append (d : Dfa) (s : Nat) (u v : List Char) :
    d.walk? s (u ++ v) = (d.walk? s u).bind fun t => d.walk? t v := by
  induction u generalizing s with
  | nil => rfl
  | cons c u ih =>
    rw [List.cons_append, walk?, walk?, Option.bind_assoc]
    congr 1
    funext t
    exact ih t

theorem walk?_concat (d : Dfa) (s : Nat) (u : List Char) (c : Char) :
    d.walk? s (u ++ [c]) = (d.walk? s u).bind fun t => d.transition? t c := by
  rw [walk?_append]
  congr 1
  funext t
  exact Option.bind_fun_some (d.transition? t c)

def Named (d : Dfa) : Prop := ∀ (i : Nat) (s : State), d.states[i]? = some s → s.name = nameAt i

/-- The start is a state, and edges come in the order of the characters and lead to states. -/
structure WellFormed (d : Dfa) : Prop where
  start_lt : d.start < d.size
  sorted : ∀ (i : Nat) (s : State), d.states[i]? = some s → (s.edges.map Prod.fst).Pairwise (· < ·)
  target_lt : ∀ (i : Nat) (s : State), d.states[i]? = some s → ∀ e ∈ s.edges, e.2 < d.size

theorem transition?_eq_some {s t : Nat} {c : Char} (h : d.transition? s c = some t) :
    ∃ st, d.states[s]? = some st ∧ st.edges.lookup c = some t := Option.bind_eq_some_iff.mp h

theorem lt_size_of_transition? {s t : Nat} {c : Char} (h : d.transition? s c = some t) : s < d.size := by
  obtain ⟨st, hst, -⟩ := transition?_eq_some h
  exact (Array.getElem?_eq_some_iff.mp hst).1

/-- Only states lead to acceptance. -/
theorem lt_size_of_accepting {s : Nat} {w : List Char} (h : (d.walk? s w).any d.isAccepting = true) : s < d.size := by
  cases w with
  | nil =>
    have haccepting : d.states[s]?.any (·.accepting) = true := h
    obtain ⟨st, hst, -⟩ := (Option.any_eq_true _ _).mp haccepting
    exact (Array.getElem?_eq_some_iff.mp hst).1
  | cons c w =>
    cases hnext : d.transition? s c with
    | none =>
      rw [walk?, hnext] at h
      cases h
    | some next => exact lt_size_of_transition? hnext

namespace WellFormed

theorem transition?_lt (h : d.WellFormed) {s t : Nat} {c : Char} (ht : d.transition? s c = some t) : t < d.size := by
  obtain ⟨st, hst, hlookup⟩ := transition?_eq_some ht
  exact h.target_lt s st hst (c, t) ((lookup_eq_some_iff (h.sorted s st hst)).mp hlookup)

theorem walk?_lt (h : d.WellFormed) {s t : Nat} {w : List Char} (hs : s < d.size) (ht : d.walk? s w = some t) :
    t < d.size := by
  induction w generalizing s with
  | nil =>
    obtain rfl := Option.some.inj ht
    exact hs
  | cons c w ih =>
    obtain ⟨next, hnext, hwalk⟩ := Option.bind_eq_some_iff.mp ht
    exact ih (h.transition?_lt hnext) hwalk

end WellFormed

/-- No word tells the states apart: it is missing from both, or leads from both to the same verdict. -/
def Indistinguishable (d : Dfa) (s t : Nat) : Prop :=
  ∀ w, (d.walk? s w).map d.isAccepting = (d.walk? t w).map d.isAccepting

/-- Every state is reached from the start and leads to acceptance. -/
structure Trim (d : Dfa) : Prop where
  reached : ∀ s < d.size, ∃ w, d.walk? d.start w = some s
  leads : ∀ s < d.size, ∃ w t, d.walk? s w = some t ∧ d.isAccepting t = true

/-- No two states mean the same. -/
def Reduced (d : Dfa) : Prop := ∀ s < d.size, ∀ t < d.size, d.Indistinguishable s t → s = t

/-- Words in the order of their length, words of one length in the order of their characters. -/
def Before (u v : List Char) : Prop := List.Shortlex (· < ·) u v

theorem before_wf : WellFounded Before := List.Shortlex.wf (InvImage.wf Char.toNat Nat.lt_wfRel.wf)

theorem lex_append {r : Char → Char → Prop} {u v : List Char} (h : List.Lex r u v) (hlen : u.length = v.length)
    (x y : List Char) : List.Lex r (u ++ x) (v ++ y) := by
  induction h with
  | nil => cases hlen
  | cons _ ih => exact .cons (ih (Nat.succ.inj hlen))
  | rel hr => exact .rel hr

theorem shortlex_concat {r : Char → Char → Prop} {u v : List Char} (h : List.Shortlex r u v) (b c : Char) :
    List.Shortlex r (u ++ [b]) (v ++ [c]) := by
  rcases List.shortlex_def.mp h with hlt | ⟨heq, hlex⟩
  · exact List.Shortlex.of_length_lt (by simpa using hlt)
  · exact List.Shortlex.of_lex (by simpa using heq) (lex_append hlex heq [b] [c])

theorem before_concat_of_before {u v : List Char} (h : Before u v) (b c : Char) : Before (u ++ [b]) (v ++ [c]) :=
  shortlex_concat h b c

theorem before_concat (u : List Char) {b c : Char} (h : b < c) : Before (u ++ [b]) (u ++ [c]) :=
  List.Shortlex.append_left ((List.shortlex_singleton_iff b c).mpr h) u

/-- Each word to a state comes after some word to each state with a smaller number. -/
def AccessOrdered (d : Dfa) : Prop :=
  ∀ v j, d.walk? d.start v = some j → ∀ i < j, ∃ u, Before u v ∧ d.walk? d.start u = some i

/-- When an edge leads to a state, each state with a smaller number is the start or has been met by an edge
out of an earlier state or by an earlier edge. -/
def Discovered (d : Dfa) : Prop :=
  ∀ i c t, d.transition? i c = some t → ∀ s < t, s = d.start ∨
    (∃ j b, j < i ∧ d.transition? j b = some s) ∨ ∃ b, b < c ∧ d.transition? i b = some s

theorem Discovered.accessOrdered (h : d.Discovered) (hstart : d.start = 0) : d.AccessOrdered := by
  intro v
  induction v using List.reverseRecOn with
  | nil =>
    intro j hj i hi
    obtain rfl : d.start = j := Option.some.inj hj
    omega
  | append_singleton v c ih =>
    intro t ht s hs
    rw [walk?_concat] at ht
    obtain ⟨i, hi, hit⟩ := Option.bind_eq_some_iff.mp ht
    -- The word to `i` comes before `v`, or the letter before `c`; both carry over to the longer words.
    rcases h i c t hit s hs with rfl | ⟨j, b, hj, hjs⟩ | ⟨b, hb, his⟩
    · exact ⟨[], List.Shortlex.of_length_lt (by simp), rfl⟩
    · obtain ⟨u, hu, huj⟩ := ih i hi j hj
      refine ⟨u ++ [b], before_concat_of_before hu b c, ?_⟩
      rw [walk?_concat, huj]
      exact hjs
    · refine ⟨v ++ [b], before_concat v hb, ?_⟩
      rw [walk?_concat, hi]
      exact his

end Dfa

end PatternAutomata
