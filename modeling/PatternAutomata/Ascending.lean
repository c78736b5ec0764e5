import Std.Data.TreeSet

namespace PatternAutomata

/-- The members of `xs` in increasing order, each once. -/
def ascending {α : Type} [Ord α] (xs : List α) : List α := (Std.TreeSet.ofList xs compare).toList

theorem mem_ascending {α : Type} [Ord α] [Std.TransOrd α] [Std.LawfulEqOrd α] {xs : List α} {a : α} :
    a ∈ ascending xs ↔ a ∈ xs := by
  classical
  rw [ascending, Std.TreeSet.mem_toList, Std.TreeSet.mem_ofList, List.contains_iff_mem]

/-- A set is determined by its members. -/
theorem ascending_eq_of_mem_iff {α : Type} [Ord α] [Std.TransOrd α] [Std.LawfulEqOrd α] {xs ys : List α}
    (h : ∀ x, x ∈ xs ↔ x ∈ ys) : ascending xs = ascending ys := by
  classical
  apply Std.TreeSet.Equiv.toList_eq
  apply Std.TreeSet.Equiv.of_forall_mem_iff
  intro x
  rw [Std.TreeSet.mem_ofList, Std.TreeSet.mem_ofList, List.contains_iff_mem, List.contains_iff_mem, h]

/-- A set in its canonical form stays as it is. -/
theorem ascending_ascending {α : Type} [Ord α] [Std.TransOrd α] [Std.LawfulEqOrd α] (xs : List α) :
    ascending (ascending xs) = ascending xs := by
  apply ascending_eq_of_mem_iff
  intro x
  exact mem_ascending

theorem compare_ascending {α : Type} [Ord α] [Std.TransOrd α] (xs : List α) :
    (ascending xs).Pairwise fun a b => compare a b = .lt := Std.TreeSet.ordered_toList

theorem ascending_sorted (xs : List Char) : (ascending xs).Pairwise (· < ·) := by
  have hlt (a b : Char) : compare a b = .lt ↔ a < b := compareOfLessAndEq_eq_lt
  exact (compare_ascending xs).imp fun h => (hlt _ _).mp h

end PatternAutomata
