import PatternAutomata.Proofs.Discovery

namespace PatternAutomata

namespace Numbering

variable {α κ : Type} [Ord κ] [Std.TransOrd κ] [Std.LawfulEqOrd κ] {key : α → κ} {R : α → α → Prop}
  {n : Numbering key} {b : α} {bs : List α}

def Covers (R : α → α → Prop) (n : Numbering key) (b : α) : Prop :=
  ∃ (i : Nat) (a : α), n.values[i]? = some a ∧ key a = key b ∧ (a = b ∨ R a b)

theorem Covers.addAll (h : n.Covers R b) (bs : List α) : (n.addAll bs).Covers R b := by
  obtain ⟨i, a, ha, hearly⟩ := h
  exact ⟨i, a, n.values_addAll_mono bs ha, hearly⟩

theorem pairwise_add (h : (n.values.toList ++ b :: bs).Pairwise R) : ((n.add b).values.toList ++ bs).Pairwise R := by
  rw [values_add]
  split_ifs
  · exact h.sublist ((List.sublist_cons_self b bs).append_left _)
  · rw [Array.toList_push, List.append_assoc]
    exact h

/-- Values that are added in order stay in order: those that are left out leave no gap. -/
theorem pairwise_addAll (h : (n.values.toList ++ bs).Pairwise R) : (n.addAll bs).values.toList.Pairwise R := by
  induction bs generalizing n with
  | nil =>
    rw [List.append_nil] at h
    exact h
  | cons b bs ih => exact ih (pairwise_add h)

theorem covers_addAll (h : (n.values.toList ++ bs).Pairwise R) (hb : b ∈ bs) : (n.addAll bs).Covers R b := by
  induction bs generalizing n with
  | nil => cases hb
  | cons c bs ih =>
    rcases List.mem_cons.mp hb with rfl | hb
    · obtain ⟨i, a, ha, hkey⟩ := (mem_numbers_iff _).mp (n.mem_numbers_add b)
      refine ⟨i, a, (n.add b).values_addAll_mono bs ha, hkey, ?_⟩
      rcases n.of_values_add b ha with hold | ⟨-, rfl⟩
      · have hmem : a ∈ n.values.toList := Array.mem_toList_iff.mpr (Array.mem_of_getElem? hold)
        exact .inr ((List.pairwise_append.mp h).2.2 a hmem b List.mem_cons_self)
      · exact .inl rfl
    · exact ih (pairwise_add h) hb

end Numbering

namespace Expansion

variable {α κ ι : Type} [Ord κ] {key : α → κ} {R : α → α → Prop} {next : α → List (ι × α)} {roots : List α}
  {e : Expansion key ι}

/-- Edges lead away from the roots, and what is later leads to what is later. -/
structure Respects (R : α → α → Prop) (next : α → List (ι × α)) (roots : List α) : Prop where
  sorted : roots.Pairwise R
  away : ∀ r ∈ roots, ∀ a, ∀ edge ∈ next a, R r edge.2
  later : ∀ a b, R a b → ∀ edge ∈ next a, ∀ edge' ∈ next b, R edge.2 edge'.2
  edges : ∀ a, ((next a).map Prod.snd).Pairwise R

/-- What is found is in order, and for all that was met there is something as early. -/
structure Ordered (R : α → α → Prop) (next : α → List (ι × α)) (roots : List α) (e : Expansion key ι) : Prop where
  sorted : e.found.values.toList.Pairwise R
  root : ∀ r ∈ roots, e.found.Covers R r
  edge : ∀ (i : Nat) (a : α), i < e.rows.size → e.found.values[i]? = some a → ∀ edge ∈ next a, e.found.Covers R edge.2

/-- The ends of the edges out of the next value come after all that has been found. -/
theorem Ordered.pairwise_targets (h : e.Ordered R next roots) (hnext : Respects R next roots)
    (hexplored : Explored next roots e) {a : α} (ha : e.found.values[e.rows.size]? = some a) :
    (e.found.values.toList ++ (next a).map Prod.snd).Pairwise R := by
  refine List.pairwise_append.mpr ⟨h.sorted, hnext.edges a, ?_⟩
  intro b hb c hc
  obtain ⟨edge, hedge, rfl⟩ := List.mem_map.mp hc
  obtain ⟨i, hi⟩ := Array.mem_iff_getElem?.mp (Array.mem_toList_iff.mp hb)
  rcases hexplored.origin i b hi with hroot | ⟨j, b', hj, -, hb', edge', hedge', rfl⟩
  · exact hnext.away b hroot a edge hedge
  · -- The value comes from one that was expanded before `a`.
    rw [← Array.getElem?_toList, List.getElem?_eq_some_iff] at ha hb'
    obtain ⟨hlt, rfl⟩ := ha
    obtain ⟨hlt', rfl⟩ := hb'
    exact hnext.later _ _ (List.pairwise_iff_getElem.mp h.sorted j _ hlt' hlt hj) edge' hedge' edge hedge

variable [Std.TransOrd κ] [Std.LawfulEqOrd κ]

theorem Ordered.step (h : e.Ordered R next roots) (hnext : Respects R next roots) (hexplored : Explored next roots e)
    {a : α} (ha : e.found.values[e.rows.size]? = some a) : (expand next e a).Ordered R next roots := by
  have htargets := h.pairwise_targets hnext hexplored ha
  refine ⟨Numbering.pairwise_addAll htargets, fun r hr => (h.root r hr).addAll _, ?_⟩
  intro i b hi hb edge hedge
  rcases Explored.of_lt_rows_expand ha hi hb with ⟨hb, hlt | ⟨-, rfl⟩⟩
  · exact (h.edge i b hlt hb edge hedge).addAll _
  · exact Numbering.covers_addAll htargets (List.mem_map_of_mem hedge)

theorem Ordered.explore (h : e.Ordered R next roots) (hnext : Respects R next roots) (hexplored : Explored next roots e)
    (bound : Nat) : (explore next bound e).Ordered R next roots := by
  induction bound generalizing e with
  | zero => exact h
  | succ bound ih =>
    rw [explore_succ]
    split
    · exact h
    · next a ha => exact ih (h.step hnext hexplored ha) (hexplored.step ha)

/-- Discovery keeps the order of the values. -/
theorem ordered_ofRoots (hnext : Respects R next roots) (bound : Nat) :
    (ofRoots key next bound roots).Ordered R next roots := by
  have hroots : ((Numbering.empty : Numbering key).values.toList ++ roots).Pairwise R := hnext.sorted
  have hstart : (⟨Numbering.empty.addAll roots, #[]⟩ : Expansion key ι).Ordered R next roots :=
    ⟨Numbering.pairwise_addAll hroots, fun _ hr => Numbering.covers_addAll hroots hr, by simp⟩
  exact hstart.explore hnext (.start roots) bound

end Expansion

end PatternAutomata
