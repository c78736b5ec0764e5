import Mathlib.Algebra.BigOperators.Intervals
import Mathlib.Logic.Relation
import PatternAutomata.Nfa

namespace PatternAutomata

namespace Nfa

variable {n : Nfa} {ids : List Nat} {i j : Nat}

def EmptyMove (n : Nfa) (i j : Nat) : Prop := j ∈ n.targets i .empty

/-- An id of no state leads nowhere. -/
theorem targets_eq_nil {l : Label} (hi : i ∉ Finset.Ico n.firstId (n.firstId + n.size)) : n.targets i l = [] := by
  have hnone : n.state? i = none := by
    rw [Finset.mem_Ico] at hi
    rw [state?]
    split_ifs with hfirst
    · apply Array.getElem?_eq_none
      unfold size at hi
      omega
    · rfl
  rw [targets, hnone]
  rfl

namespace Search

variable {s s' : Search} {visited : Std.TreeSet Nat}

theorem mem_fresh : j ∈ fresh n visited i ↔ n.EmptyMove i j ∧ j ∉ visited := by
  rw [fresh, List.mem_reverse, List.mem_filter, Bool.not_eq_true', ← Bool.not_eq_true, Std.TreeSet.contains_iff_mem]
  rfl

theorem length_fresh_le : (fresh n visited i).length ≤ (n.targets i .empty).length := by
  rw [fresh, List.length_reverse]
  exact List.length_filter_le _ _

theorem mem_insert_iff : j ∈ visited.insert i ↔ j = i ∨ j ∈ visited := by
  rw [Std.TreeSet.mem_insert, Std.LawfulEqCmp.compare_eq_iff_eq, eq_comm]

theorem next?_cons (n : Nfa) (i : Nat) (rest : List Nat) (visited : Std.TreeSet Nat) :
    next? n ⟨i :: rest, visited⟩ = if visited.contains i then some ⟨rest, visited⟩
      else some ⟨fresh n (visited.insert i) i ++ rest, visited.insert i⟩ := rfl

theorem next?_eq_none_iff : s.next? n = none ↔ s.waiting = [] := by
  obtain ⟨waiting, visited⟩ := s
  cases waiting with
  | nil => simp [next?]
  | cons i rest =>
    rw [next?_cons]
    split_ifs <;> simp

/-- An id that is taken was visited before, or it is visited now and what it leads to waits. -/
theorem exists_taken (h : s.next? n = some s') : ∃ i rest, s.waiting = i :: rest ∧
    (i ∈ s.visited ∧ s' = ⟨rest, s.visited⟩ ∨
      i ∉ s.visited ∧ s' = ⟨fresh n (s.visited.insert i) i ++ rest, s.visited.insert i⟩) := by
  obtain ⟨waiting, visited⟩ := s
  cases waiting with
  | nil => cases h
  | cons i rest =>
    refine ⟨i, rest, rfl, ?_⟩
    rw [next?_cons] at h
    split_ifs at h with hi
    · exact .inl ⟨Std.TreeSet.contains_iff_mem.mp hi, (Option.some.inj h).symm⟩
    · exact .inr ⟨fun hmem => hi (Std.TreeSet.contains_iff_mem.mpr hmem), (Option.some.inj h).symm⟩

theorem run_succ (n : Nfa) (bound : Nat) (s : Search) :
    s.run n (bound + 1) = match s.next? n with
      | none => s
      | some s' => s'.run n bound := rfl

def unvisited (n : Nfa) (visited : Std.TreeSet Nat) : Finset Nat :=
  (Finset.Ico n.firstId (n.firstId + n.size)).filter (· ∉ visited)

theorem mem_unvisited : i ∈ unvisited n visited ↔ i ∈ Finset.Ico n.firstId (n.firstId + n.size) ∧ i ∉ visited :=
  Finset.mem_filter

/-- How many ids can still be taken: those that wait, and one for each empty move of a state that was not visited. -/
def work (n : Nfa) (s : Search) : Nat :=
  s.waiting.length + ∑ i ∈ unvisited n s.visited, (n.targets i .empty).length

theorem work_mk (n : Nfa) (waiting : List Nat) (visited : Std.TreeSet Nat) :
    work n ⟨waiting, visited⟩ = waiting.length + ∑ i ∈ unvisited n visited, (n.targets i .empty).length := rfl

theorem emptyMoveCount_eq (n : Nfa) :
    n.emptyMoveCount = ∑ i ∈ Finset.Ico n.firstId (n.firstId + n.size), (n.targets i .empty).length := by
  rw [Finset.sum_Ico_eq_sum_range, Nat.add_sub_cancel_left, emptyMoveCount]
  induction n.size with
  | zero => rfl
  | succ k ih => rw [List.range_succ, List.foldl_append, ih, Finset.sum_range_succ, List.foldl_cons, List.foldl_nil]

theorem work_start (n : Nfa) (ids : List Nat) : (start ids).work n = ids.length + n.emptyMoveCount := by
  have hall : unvisited n ∅ = Finset.Ico n.firstId (n.firstId + n.size) :=
    Finset.filter_true_of_mem fun _ _ => Std.TreeSet.not_mem_emptyc
  rw [work, start, List.length_reverse, hall, emptyMoveCount_eq]

/-- Visiting a state uses up its empty moves. -/
theorem sum_unvisited_insert (hi : i ∉ visited) :
    (n.targets i .empty).length + ∑ k ∈ unvisited n (visited.insert i), (n.targets k .empty).length =
      ∑ k ∈ unvisited n visited, (n.targets k .empty).length := by
  have herase : unvisited n (visited.insert i) = (unvisited n visited).erase i := by
    ext k
    simp only [Finset.mem_erase, mem_unvisited, mem_insert_iff, not_or]
    tauto
  rw [herase]
  by_cases hstate : i ∈ Finset.Ico n.firstId (n.firstId + n.size)
  · exact Finset.add_sum_erase _ (fun k => (n.targets k .empty).length) (mem_unvisited.mpr ⟨hstate, hi⟩)
  · have hnot : i ∉ unvisited n visited := fun h => hstate (mem_unvisited.mp h).1
    rw [targets_eq_nil hstate, Finset.erase_eq_of_notMem hnot, List.length_nil, Nat.zero_add]

theorem work_lt (h : s.next? n = some s') : s'.work n < s.work n := by
  obtain ⟨i, rest, hwaiting, ⟨-, rfl⟩ | ⟨hi, rfl⟩⟩ := exists_taken h
  · rw [work_mk, work, hwaiting, List.length_cons]
    omega
  · have hfresh : (fresh n (s.visited.insert i) i).length ≤ (n.targets i .empty).length := length_fresh_le
    rw [work_mk, work, hwaiting, List.length_append, List.length_cons, ← sum_unvisited_insert hi]
    omega

/-- With a bound that is not below what is left to do, the search ends because nothing waits. -/
theorem waiting_run {bound : Nat} (h : s.work n ≤ bound) : (s.run n bound).waiting = [] := by
  induction bound generalizing s with
  | zero =>
    have hnone : s.waiting.length = 0 := by
      rw [work] at h
      omega
    exact List.eq_nil_of_length_eq_zero hnone
  | succ bound ih =>
    rw [run_succ]
    cases hnext : s.next? n with
    | none => exact next?_eq_none_iff.mp hnext
    | some s' =>
      have hlt := work_lt hnext
      exact ih (by omega)

/-- The ids that wait or have been visited are led to from the given ones; and a given id, or one that an empty move
leads to from an id that has been visited, has been visited itself or waits. -/
structure Explores (n : Nfa) (ids : List Nat) (s : Search) : Prop where
  origin : ∀ i, i ∈ s.visited ∨ i ∈ s.waiting → ∃ r ∈ ids, Relation.ReflTransGen n.EmptyMove r i
  given : ∀ r ∈ ids, r ∈ s.visited ∨ r ∈ s.waiting
  followed : ∀ i ∈ s.visited, ∀ j, n.EmptyMove i j → j ∈ s.visited ∨ j ∈ s.waiting

theorem explores_start (n : Nfa) (ids : List Nat) : Explores n ids (start ids) := by
  refine ⟨?_, ?_, ?_⟩
  · rintro i (hi | hi)
    · exact absurd hi Std.TreeSet.not_mem_emptyc
    · exact ⟨i, List.mem_reverse.mp hi, .refl⟩
  · intro r hr
    exact .inr (List.mem_reverse.mpr hr)
  · intro i hi
    exact absurd hi Std.TreeSet.not_mem_emptyc

namespace Explores

/-- An id that was visited before is no loss. -/
theorem pass (h : Explores n ids s) {rest : List Nat} (hwaiting : s.waiting = i :: rest) (hi : i ∈ s.visited) :
    Explores n ids ⟨rest, s.visited⟩ := by
  have hkept {k : Nat} (hk : k ∈ s.visited ∨ k ∈ s.waiting) : k ∈ s.visited ∨ k ∈ rest := by
    rw [hwaiting, List.mem_cons] at hk
    rcases hk with hk | rfl | hk
    · exact .inl hk
    · exact .inl hi
    · exact .inr hk
  refine ⟨?_, fun r hr => hkept (h.given r hr), fun k hk j hj => hkept (h.followed k hk j hj)⟩
  intro k hk
  refine h.origin k (hk.imp_right fun hrest => ?_)
  rw [hwaiting]
  exact List.mem_cons_of_mem i hrest

theorem visit (h : Explores n ids s) {rest : List Nat} (hwaiting : s.waiting = i :: rest) :
    Explores n ids ⟨fresh n (s.visited.insert i) i ++ rest, s.visited.insert i⟩ := by
  -- What was accounted for before still is: the id taken is now among the visited ones.
  have hkept {k : Nat} (hk : k ∈ s.visited ∨ k ∈ s.waiting) :
      k ∈ s.visited.insert i ∨ k ∈ fresh n (s.visited.insert i) i ++ rest := by
    rw [hwaiting, List.mem_cons] at hk
    rw [mem_insert_iff, List.mem_append]
    tauto
  have hmem : i ∈ s.waiting := by
    rw [hwaiting]
    exact List.mem_cons_self
  refine ⟨?_, fun r hr => hkept (h.given r hr), ?_⟩
  · intro k hk
    rw [mem_insert_iff, List.mem_append, mem_fresh] at hk
    rcases hk with (rfl | hk) | ⟨hmove, -⟩ | hk
    · exact h.origin k (.inr hmem)
    · exact h.origin k (.inl hk)
    · obtain ⟨r, hr, hpath⟩ := h.origin i (.inr hmem)
      exact ⟨r, hr, hpath.tail hmove⟩
    · refine h.origin k (.inr ?_)
      rw [hwaiting]
      exact List.mem_cons_of_mem i hk
  · intro k hk j hmove
    rcases mem_insert_iff.mp hk with rfl | hk
    · by_cases hj : j ∈ s.visited.insert k
      · exact .inl hj
      · exact .inr (List.mem_append_left _ (mem_fresh.mpr ⟨hmove, hj⟩))
    · exact hkept (h.followed k hk j hmove)

theorem step (h : Explores n ids s) (hnext : s.next? n = some s') : Explores n ids s' := by
  obtain ⟨i, rest, hwaiting, ⟨hi, rfl⟩ | ⟨-, rfl⟩⟩ := exists_taken hnext
  · exact h.pass hwaiting hi
  · exact h.visit hwaiting

theorem run (h : Explores n ids s) (bound : Nat) : Explores n ids (s.run n bound) := by
  induction bound generalizing s with
  | zero => exact h
  | succ bound ih =>
    rw [run_succ]
    cases hnext : s.next? n with
    | none => exact h
    | some s' => exact ih (h.step hnext)

/-- When nothing waits, all that is led to has been visited. -/
theorem mem_visited_iff (h : Explores n ids s) (hover : s.waiting = []) :
    j ∈ s.visited ↔ ∃ i ∈ ids, Relation.ReflTransGen n.EmptyMove i j := by
  have hvisited {k : Nat} (hk : k ∈ s.visited ∨ k ∈ s.waiting) : k ∈ s.visited := by
    rw [hover] at hk
    exact hk.resolve_right List.not_mem_nil
  constructor
  · intro hj
    exact h.origin j (.inl hj)
  · rintro ⟨i, hi, hpath⟩
    induction hpath with
    | refl => exact hvisited (h.given i hi)
    | tail _ hmove ih => exact hvisited (h.followed _ ih _ hmove)

end Explores

end Search

/-- Nothing is left to visit when a search is over. -/
theorem waiting_search (n : Nfa) (ids : List Nat) : (n.search ids).waiting = [] :=
  Search.waiting_run (Search.work_start n ids).le

theorem mem_closure_iff : j ∈ n.closure ids ↔ ∃ i ∈ ids, Relation.ReflTransGen n.EmptyMove i j := by
  rw [closure, Std.TreeSet.mem_toList]
  exact ((Search.explores_start n ids).run _).mem_visited_iff (n.waiting_search ids)

/-- Closures are in their canonical form: increasing and without repetition. -/
theorem closure_sorted (n : Nfa) (ids : List Nat) : (n.closure ids).Pairwise (· < ·) := by
  have h := Std.TreeSet.ordered_toList (t := (n.search ids).visited)
  exact h.imp fun hlt => Nat.compare_eq_lt.mp hlt

/-- What makes up a closure settles it. -/
theorem closure_eq_iff {ids' : List Nat} (hsorted : ids'.Pairwise (· < ·)) :
    n.closure ids = ids' ↔ ∀ j, j ∈ ids' ↔ ∃ i ∈ ids, Relation.ReflTransGen n.EmptyMove i j := by
  constructor
  · rintro rfl j
    exact mem_closure_iff
  · intro h
    exact (n.closure_sorted ids).eq_of_mem_iff hsorted fun j => mem_closure_iff.trans (h j).symm

/-- The closure as an operator on sets of ids. Each search for one ends because nothing is left to visit; what it gives
are the given ids, states or not, and all that empty moves lead to from them. So it only adds ids, more for more ids,
and none the second time; and the closure of a union is the union of the closures. -/
structure Saturates (n : Nfa) : Prop where
  ends : ∀ ids, (n.search ids).waiting = []
  mem_iff : ∀ ids j, j ∈ n.closure ids ↔ ∃ i ∈ ids, Relation.ReflTransGen n.EmptyMove i j
  increasing : ∀ ids, (n.closure ids).Pairwise (· < ·)
  extensive : ∀ ids, ids ⊆ n.closure ids
  monotone : ∀ ids ids', ids ⊆ ids' → n.closure ids ⊆ n.closure ids'
  idempotent : ∀ ids, n.closure (n.closure ids) = n.closure ids
  union : ∀ ids ids', n.closure (ids ++ ids') = ascending (n.closure ids ++ n.closure ids')

/-- Whatever calls an automaton was built by, empty moves in circles and edges to ids of no state among its edges or
not, closures along its empty moves are found. -/
theorem saturates_closure (n : Nfa) : n.Saturates := by
  refine ⟨n.waiting_search, fun _ _ => mem_closure_iff, n.closure_sorted, ?_, ?_, ?_, ?_⟩
  · intro ids i hi
    exact mem_closure_iff.mpr ⟨i, hi, .refl⟩
  · intro ids ids' hsub j hj
    obtain ⟨i, hi, hpath⟩ := mem_closure_iff.mp hj
    exact mem_closure_iff.mpr ⟨i, hsub hi, hpath⟩
  · intro ids
    refine (closure_eq_iff (n.closure_sorted ids)).mpr fun j => ?_
    constructor
    · intro hj
      exact ⟨j, hj, .refl⟩
    · rintro ⟨k, hk, hpath⟩
      obtain ⟨i, hi, hpath'⟩ := mem_closure_iff.mp hk
      exact mem_closure_iff.mpr ⟨i, hi, hpath'.trans hpath⟩
  · intro ids ids'
    have hsorted : (ascending (n.closure ids ++ n.closure ids')).Pairwise (· < ·) :=
      (compare_ascending _).imp fun hlt => Nat.compare_eq_lt.mp hlt
    refine (closure_eq_iff hsorted).mpr fun j => ?_
    simp only [mem_ascending, List.mem_append, mem_closure_iff, or_and_right, exists_or]

end Nfa

end PatternAutomata
