import Mathlib.Data.Set.Card
import PatternAutomata.Proofs.Dfa.Walk
import PatternAutomata.Proofs.Sample

namespace PatternAutomata

namespace Dfa

/-- Shorter words come first, words of one length in the order of the alphabet. -/
def BeforeIn (alphabet : List Char) (u v : String) : Prop :=
  List.Shortlex (fun b c => alphabet.idxOf b < alphabet.idxOf c) u.toList v.toList

/-- Of the words over the alphabet, fewer than `count` come before this one. -/
structure AmongFirst (alphabet : List Char) (count : Nat) (w : String) : Prop where
  written : WrittenIn alphabet w
  few : {v | WrittenIn alphabet v ∧ BeforeIn alphabet v w}.encard < count

variable {alphabet : List Char} {u v w : String} {layer : List String} {n rounds count : Nat}

instance : Std.Asymm (BeforeIn alphabet) where
  asymm u v huv hvu := by
    have : Std.Asymm fun b c => alphabet.idxOf b < alphabet.idxOf c := ⟨fun b c => Nat.lt_asymm⟩
    exact List.Shortlex.asymm.asymm _ _ huv hvu

theorem BeforeIn.length_le (h : BeforeIn alphabet u v) : u.toList.length ≤ v.toList.length := by
  rcases List.shortlex_def.mp h with hlt | ⟨heq, -⟩
  · exact hlt.le
  · exact heq.le

theorem BeforeIn.push (h : BeforeIn alphabet u v) (b c : Char) : BeforeIn alphabet (u.push b) (v.push c) := by
  rw [BeforeIn, String.toList_push, String.toList_push]
  exact shortlex_concat h b c

theorem beforeIn_push (u : String) {b c : Char} (h : alphabet.idxOf b < alphabet.idxOf c) :
    BeforeIn alphabet (u.push b) (u.push c) := by
  rw [BeforeIn, String.toList_push, String.toList_push]
  exact List.Shortlex.append_left ((List.shortlex_singleton_iff b c).mpr h) u.toList

/-- The letters of an alphabet stand in their own order. -/
theorem pairwise_idxOf (h : alphabet.Nodup) : alphabet.Pairwise fun b c => alphabet.idxOf b < alphabet.idxOf c := by
  rw [List.pairwise_iff_getElem]
  intro i j hi hj hij
  rwa [h.idxOf_getElem, h.idxOf_getElem]

structure Layer (alphabet : List Char) (n : Nat) (layer : List String) : Prop where
  sorted : layer.Pairwise (BeforeIn alphabet)
  mem_iff : ∀ w, w ∈ layer ↔ WrittenIn alphabet w ∧ w.toList.length = n

theorem layer_zero (alphabet : List Char) : Layer alphabet 0 [""] := by
  refine ⟨List.pairwise_singleton _ _, ?_⟩
  intro w
  rw [List.mem_singleton]
  constructor
  · rintro rfl
    exact ⟨writtenIn_empty alphabet, rfl⟩
  · rintro ⟨-, hlength⟩
    exact String.toList_inj.mp (List.eq_nil_of_length_eq_zero hlength)

/-- A word that is not empty is a shorter one and a letter. -/
theorem WrittenIn.exists_push (h : WrittenIn alphabet w) (hlength : w.toList.length = n + 1) :
    ∃ u, WrittenIn alphabet u ∧ u.toList.length = n ∧ ∃ c ∈ alphabet, u.push c = w := by
  obtain ⟨cs, c, hw⟩ := (List.eq_nil_or_concat' w.toList).resolve_left fun hnil => by simp [hnil] at hlength
  have hmem : ∀ a ∈ cs ++ [c], a ∈ alphabet := fun a ha => h a (hw ▸ ha)
  refine ⟨String.ofList cs, ?_, ?_, c, hmem c (by simp), ?_⟩
  · intro a ha
    exact hmem a (List.mem_append_left _ (by simpa using ha))
  · rw [hw] at hlength
    simpa using hlength
  · rw [← String.toList_inj, String.toList_push, String.toList_ofList, hw]

theorem Layer.next (h : Layer alphabet n layer) (hnodup : alphabet.Nodup) :
    Layer alphabet (n + 1) (layer.flatMap fun w => alphabet.map w.push) := by
  constructor
  · rw [List.pairwise_flatMap]
    constructor
    · intro u _
      exact List.pairwise_map.mpr ((pairwise_idxOf hnodup).imp (beforeIn_push u))
    · refine h.sorted.imp ?_
      intro u v huv x hx y hy
      obtain ⟨b, -, rfl⟩ := List.mem_map.mp hx
      obtain ⟨c, -, rfl⟩ := List.mem_map.mp hy
      exact huv.push b c
  · intro w
    simp only [List.mem_flatMap, List.mem_map, h.mem_iff]
    constructor
    · rintro ⟨u, ⟨hu, hlength⟩, c, hc, rfl⟩
      exact ⟨hu.push hc, by simp [hlength]⟩
    · rintro ⟨hw, hlength⟩
      obtain ⟨u, hu, hshorter, c, hc, rfl⟩ := hw.exists_push hlength
      exact ⟨u, ⟨hu, hshorter⟩, c, hc, rfl⟩

def layersFrom (alphabet : List Char) : Nat → List String → List String
  | 0, _ => []
  | rounds + 1, layer => layer ++ layersFrom alphabet rounds (layer.flatMap fun w => alphabet.map w.push)

/-- Layers that are not needed make no difference to the first words. -/
theorem wordsFrom_eq : wordsFrom alphabet rounds count layer = (layersFrom alphabet rounds layer).take count := by
  induction rounds generalizing count layer with
  | zero => exact List.take_nil.symm
  | succ rounds ih =>
    rw [wordsFrom, layersFrom]
    split_ifs with hcount hlayer
    · rw [List.take_append_of_le_length hcount]
    · rw [List.isEmpty_iff] at hlayer
      subst hlayer
      -- Nothing comes from an empty layer.
      have hnone (rounds : Nat) : layersFrom alphabet rounds [] = [] := by
        induction rounds with
        | zero => rfl
        | succ rounds ih => exact ih
      rw [List.flatMap_nil, hnone, List.append_nil, List.take_nil]
    · rw [ih, List.take_append, List.take_of_length_le (Nat.le_of_not_le hcount)]

theorem mem_layersFrom (h : Layer alphabet n layer) (hnodup : alphabet.Nodup) :
    w ∈ layersFrom alphabet rounds layer ↔
      WrittenIn alphabet w ∧ n ≤ w.toList.length ∧ w.toList.length < n + rounds := by
  induction rounds generalizing n layer with
  | zero =>
    rw [layersFrom]
    simp only [List.not_mem_nil, false_iff]
    omega
  | succ rounds ih =>
    rw [layersFrom, List.mem_append, h.mem_iff, ih (h.next hnodup)]
    by_cases hw : WrittenIn alphabet w
    · simp only [hw, true_and]
      omega
    · simp only [hw, false_and, or_self]

theorem pairwise_layersFrom (h : Layer alphabet n layer) (hnodup : alphabet.Nodup) :
    (layersFrom alphabet rounds layer).Pairwise (BeforeIn alphabet) := by
  induction rounds generalizing n layer with
  | zero => exact List.Pairwise.nil
  | succ rounds ih =>
    refine List.pairwise_append.mpr ⟨h.sorted, ih (h.next hnodup), ?_⟩
    intro u hu v hv
    apply List.Shortlex.of_length_lt
    have hlength := ((h.mem_iff u).mp hu).2
    have hlength' := ((mem_layersFrom (h.next hnodup) hnodup).mp hv).2.1
    omega

/-- The first members of a list in order are those that few members come before. -/
theorem mem_take_iff {α : Type} {R : α → α → Prop} [Std.Asymm R] {l : List α} (h : l.Pairwise R) {a : α} :
    a ∈ l.take n ↔ a ∈ l ∧ {b | b ∈ l ∧ R b a}.encard < n := by
  classical
  by_cases ha : a ∈ l
  · obtain ⟨before, after, rfl⟩ := List.append_of_mem ha
    obtain ⟨hbefore, hrest, hcross⟩ := List.pairwise_append.mp h
    have hself : ¬ R a a := fun haa => Std.Asymm.asymm a a haa haa
    -- What comes before `a` in the order stands before it in the list, so these are counted by its index.
    have hset : {b | b ∈ before ++ a :: after ∧ R b a} = ↑before.toFinset := by
      ext b
      simp only [Set.mem_ofPred_eq, List.mem_append, List.mem_cons, List.coe_toFinset]
      constructor
      · rintro ⟨hb | rfl | hb, hba⟩
        · exact hb
        · exact absurd hba hself
        · exact absurd hba (Std.Asymm.asymm a b ((List.pairwise_cons.mp hrest).1 b hb))
      · intro hb
        exact ⟨.inl hb, hcross b hb a List.mem_cons_self⟩
    have hnodup : before.Nodup := by
      refine hbefore.imp ?_
      rintro b _ hbb rfl
      exact Std.Asymm.asymm b b hbb hbb
    rw [hset, Set.encard_coe_eq_coe_finsetCard, List.toFinset_card_of_nodup hnodup, Nat.cast_lt]
    simp only [ha, true_and]
    constructor
    · intro hmem
      by_contra hle
      rw [List.take_append_of_le_length (by omega)] at hmem
      exact hself (hcross a (List.mem_of_mem_take hmem) a List.mem_cons_self)
    · intro hlt
      rw [List.take_append, List.mem_append]
      obtain ⟨k, hk⟩ : ∃ k, n - before.length = k + 1 := ⟨n - before.length - 1, by omega⟩
      rw [hk, List.take_succ_cons]
      exact .inr List.mem_cons_self
  · simp only [ha, false_and, iff_false]
    exact fun hmem => ha (List.mem_of_mem_take hmem)

/-- Before a word come all those that it begins with. -/
theorem WrittenIn.length_le_encard (h : WrittenIn alphabet w) :
    (w.toList.length : ℕ∞) ≤ {v | WrittenIn alphabet v ∧ BeforeIn alphabet v w}.encard := by
  let beginning (i : Nat) := String.ofList (w.toList.take i)
  have hlength {i : Nat} (hi : i < w.toList.length) : (beginning i).toList.length = i := by
    rw [String.toList_ofList, List.length_take, min_eq_left hi.le]
  have hinj : Set.InjOn beginning ↑(Finset.range w.toList.length) := by
    intro i hi j hj hij
    rw [← hlength (Finset.mem_range.mp hi), hij, hlength (Finset.mem_range.mp hj)]
  rw [← Finset.card_range w.toList.length, ← Finset.card_image_of_injOn hinj, ← Set.encard_coe_eq_coe_finsetCard]
  apply Set.encard_le_encard
  intro v hv
  obtain ⟨i, hi, rfl⟩ := Finset.mem_image.mp hv
  refine ⟨?_, List.Shortlex.of_length_lt ?_⟩
  · intro c hc
    rw [String.toList_ofList] at hc
    exact h c (List.mem_of_mem_take hc)
  · rw [hlength (Finset.mem_range.mp hi)]
    exact Finset.mem_range.mp hi

/-- What is kept are the first words over the alphabet. -/
theorem mem_firstWords_iff (hnodup : alphabet.Nodup) : w ∈ firstWords alphabet count ↔ AmongFirst alphabet count w := by
  have hlayers (v : String) : v ∈ layersFrom alphabet count [""] ↔ WrittenIn alphabet v ∧ v.toList.length < count := by
    rw [mem_layersFrom (layer_zero alphabet) hnodup, Nat.zero_add]
    simp only [Nat.zero_le, true_and]
  -- A word that comes before a short one is short itself.
  have hbefore (hw : w.toList.length < count) : {v | v ∈ layersFrom alphabet count [""] ∧ BeforeIn alphabet v w} =
      {v | WrittenIn alphabet v ∧ BeforeIn alphabet v w} := by
    ext v
    rw [Set.mem_ofPred_eq, Set.mem_ofPred_eq, hlayers]
    exact ⟨fun h => ⟨h.1.1, h.2⟩, fun h => ⟨⟨h.1, h.2.length_le.trans_lt hw⟩, h.2⟩⟩
  rw [firstWords, wordsFrom_eq, mem_take_iff (pairwise_layersFrom (layer_zero alphabet) hnodup), hlayers]
  constructor
  · rintro ⟨⟨hwritten, hlength⟩, hfew⟩
    rw [hbefore hlength] at hfew
    exact ⟨hwritten, hfew⟩
  · rintro ⟨hwritten, hfew⟩
    have hlength : w.toList.length < count := Nat.cast_lt.mp (hwritten.length_le_encard.trans_lt hfew)
    rw [hbefore hlength]
    exact ⟨⟨hwritten, hlength⟩, hfew⟩

end Dfa

end PatternAutomata
