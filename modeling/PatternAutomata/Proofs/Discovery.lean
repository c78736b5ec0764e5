import Mathlib.Data.Finset.Card
import Mathlib.Data.Fintype.Card
import Mathlib.Logic.Relation
import PatternAutomata.Numbering

namespace PatternAutomata

namespace Numbering

variable {α κ : Type} [Ord κ] {key : α → κ}

theorem number_eq (n : Numbering key) {i : Nat} {a : α} (h : n.values[i]? = some a) : n.number (key a) = i := by
  have hn : n.numbers[key a]? = some i := (n.numbers_iff _ _).mpr (by rw [h]; rfl)
  rw [number, hn]
  rfl

theorem index_unique (n : Numbering key) {i j : Nat} {a b : α} (ha : n.values[i]? = some a)
    (hb : n.values[j]? = some b) (h : key a = key b) : i = j := by
  rw [← n.number_eq ha, ← n.number_eq hb, h]

theorem nodup_values (n : Numbering key) : n.values.toList.Nodup := by
  rw [List.nodup_iff_getElem?_ne_getElem?]
  intro i j hij hj heq
  rw [Array.length_toList] at hj
  rw [Array.getElem?_toList, Array.getElem?_toList, Array.getElem?_eq_getElem hj] at heq
  exact hij.ne (n.index_unique heq (Array.getElem?_eq_getElem hj) rfl)

variable [Std.TransOrd κ] [Std.LawfulEqOrd κ]

omit [Std.LawfulEqOrd κ] in
theorem mem_numbers_iff (n : Numbering key) {k : κ} :
    k ∈ n.numbers ↔ ∃ (i : Nat) (a : α), n.values[i]? = some a ∧ key a = k := by
  rw [Std.TreeMap.mem_iff_isSome_getElem?, Option.isSome_iff_exists]
  constructor
  · rintro ⟨i, hi⟩
    obtain ⟨a, ha, hk⟩ := Option.map_eq_some_iff.mp ((n.numbers_iff k i).mp hi)
    exact ⟨i, a, ha, hk⟩
  · rintro ⟨i, a, ha, hk⟩
    exact ⟨i, (n.numbers_iff k i).mpr (by rw [ha, Option.map_some, hk])⟩

theorem values_add (n : Numbering key) (b : α) :
    (n.add b).values = if key b ∈ n.numbers then n.values else n.values.push b := by
  unfold add
  split_ifs <;> rfl

theorem values_add_mono (n : Numbering key) (b : α) {i : Nat} {a : α} (h : n.values[i]? = some a) :
    (n.add b).values[i]? = some a := by
  rw [values_add]
  split_ifs
  · exact h
  · have hi : i ≠ n.values.size := by
      rintro rfl
      simp at h
    rw [Array.getElem?_push, if_neg hi, h]

theorem mem_numbers_add (n : Numbering key) (b : α) : key b ∈ (n.add b).numbers := by
  unfold add
  split_ifs with h
  · exact h
  · exact Std.TreeMap.mem_insert_self

theorem of_values_add (n : Numbering key) (b : α) {i : Nat} {a : α} (h : (n.add b).values[i]? = some a) :
    n.values[i]? = some a ∨ i = n.values.size ∧ a = b := by
  rw [values_add] at h
  split_ifs at h with hb
  · exact .inl h
  · rw [Array.getElem?_push] at h
    split_ifs at h with hi
    · exact .inr ⟨hi, (Option.some.inj h).symm⟩
    · exact .inl h

theorem size_add_le (n : Numbering key) (b : α) : (n.add b).values.size ≤ n.values.size + 1 := by
  rw [values_add]
  split_ifs
  · omega
  · rw [Array.size_push]

def addAll (n : Numbering key) (bs : List α) : Numbering key := bs.foldl add n

theorem values_addAll_mono (n : Numbering key) (bs : List α) {i : Nat} {a : α} (h : n.values[i]? = some a) :
    (n.addAll bs).values[i]? = some a := by
  induction bs generalizing n with
  | nil => exact h
  | cons b bs ih => exact ih (n.add b) (n.values_add_mono b h)

theorem addAll_append (n : Numbering key) (bs cs : List α) : n.addAll (bs ++ cs) = (n.addAll bs).addAll cs :=
  List.foldl_append

theorem mem_numbers_addAll_mono (n : Numbering key) (bs : List α) {k : κ} (h : k ∈ n.numbers) :
    k ∈ (n.addAll bs).numbers := by
  obtain ⟨i, a, ha, hk⟩ := n.mem_numbers_iff.mp h
  exact (mem_numbers_iff _).mpr ⟨i, a, n.values_addAll_mono bs ha, hk⟩

theorem mem_numbers_addAll (n : Numbering key) {bs : List α} {b : α} (h : b ∈ bs) : key b ∈ (n.addAll bs).numbers := by
  induction bs generalizing n with
  | nil => cases h
  | cons c bs ih =>
    rcases List.mem_cons.mp h with rfl | h
    · exact (n.add b).mem_numbers_addAll_mono bs (n.mem_numbers_add b)
    · exact ih (n.add c) h

theorem size_le_addAll (n : Numbering key) (bs : List α) : n.values.size ≤ (n.addAll bs).values.size := by
  induction bs generalizing n with
  | nil => exact le_rfl
  | cons b bs ih =>
    refine le_trans ?_ (ih (n.add b))
    rw [values_add]
    split_ifs <;> simp

/-- What adding puts after the values that were there comes from the list. -/
theorem of_values_addAll (n : Numbering key) (bs : List α) {i : Nat} {a : α} (h : (n.addAll bs).values[i]? = some a) :
    n.values[i]? = some a ∨ n.values.size ≤ i ∧ a ∈ bs := by
  induction bs generalizing n with
  | nil => exact .inl h
  | cons b bs ih =>
    rcases ih (n.add b) h with h | ⟨hi, ha⟩
    · rcases n.of_values_add b h with h | ⟨rfl, rfl⟩
      · exact .inl h
      · exact .inr ⟨le_rfl, List.mem_cons_self⟩
    · refine .inr ⟨le_trans ?_ hi, List.mem_cons_of_mem b ha⟩
      exact n.size_le_addAll [b]

/-- Numbers stay while values are added. -/
theorem number_addAll (n : Numbering key) {k : κ} (h : k ∈ n.numbers) (bs : List α) :
    (n.addAll bs).number k = n.number k := by
  obtain ⟨i, a, ha, rfl⟩ := n.mem_numbers_iff.mp h
  rw [n.number_eq ha, number_eq _ (n.values_addAll_mono bs ha)]

/-- A number given for the first time is the next one. -/
theorem number_le_size (n : Numbering key) (b : α) (bs : List α) :
    (n.addAll (b :: bs)).number (key b) ≤ n.values.size := by
  obtain ⟨i, a, ha, hk⟩ := (mem_numbers_iff _).mp (n.mem_numbers_add b)
  have hlater : (n.addAll (b :: bs)).values[i]? = some a := (n.add b).values_addAll_mono bs ha
  rw [← hk, number_eq _ hlater]
  have hi : i < (n.add b).values.size := (Array.getElem?_eq_some_iff.mp ha).1
  have := n.size_add_le b
  omega

end Numbering

namespace Expansion

variable {α κ ι : Type} [Ord κ] [Std.TransOrd κ] [Std.LawfulEqOrd κ] {key : α → κ}

def expand (next : α → List (ι × α)) (e : Expansion key ι) (a : α) : Expansion key ι :=
  let found := e.found.addAll ((next a).map Prod.snd)
  ⟨found, e.rows.push ((next a).map fun edge => (edge.1, found.number (key edge.2)))⟩

theorem explore_succ (next : α → List (ι × α)) (bound : Nat) (e : Expansion key ι) :
    explore next (bound + 1) e =
      match e.found.values[e.rows.size]? with
      | none => e
      | some a => explore next bound (expand next e a) := by
  rw [explore]
  cases e.found.values[e.rows.size]? with
  | none => rfl
  | some a => simp only [expand, Numbering.addAll, List.foldl_map]

/-- What holds after each expansion. The value at `i` is met on an edge out of an earlier value or is a
root, and when an edge leads to number `t`, all numbers below `t` are those of roots or have been met. -/
structure Explored (next : α → List (ι × α)) (roots : List α) (e : Expansion key ι) : Prop where
  rows_le : e.rows.size ≤ e.found.values.size
  row_eq : ∀ (i : Nat) (a : α), i < e.rows.size → e.found.values[i]? = some a →
    e.rows[i]? = some ((next a).map fun edge => (edge.1, e.found.number (key edge.2)))
  met : ∀ (i : Nat) (a : α), i < e.rows.size → e.found.values[i]? = some a →
    ∀ edge ∈ next a, key edge.2 ∈ e.found.numbers
  roots_met : ∀ a ∈ roots, key a ∈ e.found.numbers
  origin : ∀ (i : Nat) (a : α), e.found.values[i]? = some a →
    a ∈ roots ∨ ∃ (j : Nat) (b : α), j < e.rows.size ∧ j < i ∧ e.found.values[j]? = some b ∧
      ∃ edge ∈ next b, edge.2 = a
  first_met : ∀ (i : Nat) (a : α), i < e.rows.size → e.found.values[i]? = some a →
    ∀ before edge after, next a = before ++ edge :: after → ∀ s < e.found.number (key edge.2),
      (∃ r ∈ roots, e.found.number (key r) = s) ∨
      (∃ (j : Nat) (b : α), j < i ∧ e.found.values[j]? = some b ∧
        ∃ earlier ∈ next b, e.found.number (key earlier.2) = s) ∨
      ∃ earlier ∈ before, e.found.number (key earlier.2) = s

namespace Explored

variable {next : α → List (ι × α)} {roots : List α} {e : Expansion key ι}

theorem start (roots : List α) : Explored next roots (⟨Numbering.empty.addAll roots, #[]⟩ : Expansion key ι) where
  rows_le := by simp
  row_eq := by simp
  met := by simp
  roots_met a ha := Numbering.empty.mem_numbers_addAll ha
  origin i a h := by
    rcases Numbering.empty.of_values_addAll roots h with h | ⟨-, h⟩
    · simp [Numbering.empty] at h
    · exact .inl h
  first_met := by simp

/-- While a value is expanded, each number below that of an edge has a cause. -/
theorem first_met_expand (h : Explored next roots e) {a : α} {before after : List (ι × α)} {edge : ι × α}
    (hnext : next a = before ++ edge :: after) {s : Nat} (hs : s < (expand next e a).found.number (key edge.2)) :
    (∃ r ∈ roots, (expand next e a).found.number (key r) = s) ∨
      (∃ (j : Nat) (b : α), j < e.rows.size ∧ e.found.values[j]? = some b ∧
        ∃ earlier ∈ next b, (expand next e a).found.number (key earlier.2) = s) ∨
      ∃ earlier ∈ before, (expand next e a).found.number (key earlier.2) = s := by
  have hsplit : (expand next e a).found =
      (e.found.addAll (before.map Prod.snd)).addAll (edge.2 :: after.map Prod.snd) := by
    rw [← Numbering.addAll_append]
    simp [expand, hnext]
  -- A number that was given comes from a root or an older edge, a new one from an edge out of `a` before this one.
  by_cases hold : s < e.found.values.size
  · have hc : e.found.values[s]? = some e.found.values[s] := Array.getElem?_eq_getElem hold
    have hnumber : (expand next e a).found.number (key e.found.values[s]) = s :=
      Numbering.number_eq _ (e.found.values_addAll_mono _ hc)
    rcases h.origin s _ hc with hroot | ⟨j, b, hj, -, hb, earlier, hearlier, heq⟩
    · exact .inl ⟨_, hroot, hnumber⟩
    · exact .inr (.inl ⟨j, b, hj, hb, earlier, hearlier, by rw [heq, hnumber]⟩)
  · rw [hsplit] at hs
    have hlt := hs.trans_le (Numbering.number_le_size _ edge.2 (after.map Prod.snd))
    have hc := Array.getElem?_eq_getElem hlt
    rcases e.found.of_values_addAll _ hc with hc' | ⟨-, hmem⟩
    · exact absurd (Array.getElem?_eq_some_iff.mp hc').1 hold
    · obtain ⟨earlier, hearlier, heq⟩ := List.mem_map.mp hmem
      refine .inr (.inr ⟨earlier, hearlier, ?_⟩)
      rw [heq, hsplit]
      exact Numbering.number_eq _ (Numbering.values_addAll_mono _ _ hc)

/-- A value found while `a` is expanded was there before, or it is at the end of an edge out of `a`. -/
theorem origin_expand (h : Explored next roots e) {a : α} (ha : e.found.values[e.rows.size]? = some a) {i : Nat} {b : α}
    (hb : (expand next e a).found.values[i]? = some b) :
    b ∈ roots ∨ ∃ (j : Nat) (c : α), j < e.rows.size + 1 ∧ j < i ∧ (expand next e a).found.values[j]? = some c ∧
      ∃ edge ∈ next c, edge.2 = b := by
  have hsize : e.rows.size < e.found.values.size := (Array.getElem?_eq_some_iff.mp ha).1
  rcases e.found.of_values_addAll _ hb with hb | ⟨hge, hmem⟩
  · rcases h.origin i b hb with hroot | ⟨j, c, hj, hji, hc, hedge⟩
    · exact .inl hroot
    · exact .inr ⟨j, c, by omega, hji, e.found.values_addAll_mono _ hc, hedge⟩
  · obtain ⟨edge, hedge, heq⟩ := List.mem_map.mp hmem
    exact .inr ⟨e.rows.size, a, by omega, by omega, e.found.values_addAll_mono _ ha, edge, hedge, heq⟩

/-- After `a` has been expanded, a value with a row had it before or is `a`. -/
theorem of_lt_rows_expand {a : α} (ha : e.found.values[e.rows.size]? = some a) {i : Nat} {b : α}
    (hi : i < (expand next e a).rows.size) (hb : (expand next e a).found.values[i]? = some b) :
    e.found.values[i]? = some b ∧ (i < e.rows.size ∨ i = e.rows.size ∧ b = a) := by
  have hsize : e.rows.size < e.found.values.size := (Array.getElem?_eq_some_iff.mp ha).1
  rw [expand, Array.size_push] at hi
  rcases e.found.of_values_addAll _ hb with hb | ⟨hge, -⟩
  · rcases Nat.lt_succ_iff_lt_or_eq.mp hi with hlt | rfl
    · exact ⟨hb, .inl hlt⟩
    · exact ⟨hb, .inr ⟨rfl, Option.some.inj (hb.symm.trans ha)⟩⟩
  · omega

theorem step (h : Explored next roots e) {a : α} (ha : e.found.values[e.rows.size]? = some a) :
    Explored next roots (expand next e a) := by
  have hsize : e.rows.size < e.found.values.size := (Array.getElem?_eq_some_iff.mp ha).1
  -- Numbers that were given stay, so what held of the older rows still does.
  have hnumber : ∀ {k : κ}, k ∈ e.found.numbers → (expand next e a).found.number k = e.found.number k :=
    fun hk => e.found.number_addAll hk _
  refine ⟨?_, ?_, ?_, ?_, ?_, ?_⟩
  · rw [expand, Array.size_push]
    exact hsize.trans_le (e.found.size_le_addAll _)
  · intro i b hi hb
    rcases of_lt_rows_expand ha hi hb with ⟨hb, hlt | ⟨rfl, rfl⟩⟩
    · have hrow := h.row_eq i b hlt hb
      rw [expand, Array.getElem?_push, if_neg hlt.ne, hrow, Option.some.injEq]
      apply List.map_congr_left
      intro edge hedge
      rw [Prod.mk.injEq]
      exact ⟨rfl, (hnumber (h.met i b hlt hb edge hedge)).symm⟩
    · rw [expand, Array.getElem?_push, if_pos rfl]
  · intro i b hi hb edge hedge
    rcases of_lt_rows_expand ha hi hb with ⟨hb, hlt | ⟨rfl, rfl⟩⟩
    · exact e.found.mem_numbers_addAll_mono _ (h.met i b hlt hb edge hedge)
    · exact e.found.mem_numbers_addAll (List.mem_map_of_mem hedge)
  · intro b hb
    exact e.found.mem_numbers_addAll_mono _ (h.roots_met b hb)
  · intro i b hb
    have hrows : (expand next e a).rows.size = e.rows.size + 1 := Array.size_push ..
    rw [hrows]
    exact h.origin_expand ha hb
  · intro i b hi hb before edge after hnext s hs
    rcases of_lt_rows_expand ha hi hb with ⟨hb, hlt | ⟨rfl, rfl⟩⟩
    · have hmet := h.met i b hlt hb
      rw [hnumber (hmet edge (by simp [hnext]))] at hs
      rcases h.first_met i b hlt hb before edge after hnext s hs with
        ⟨r, hr, heq⟩ | ⟨j, c, hj, hc, earlier, hearlier, heq⟩ | ⟨earlier, hearlier, heq⟩
      · exact .inl ⟨r, hr, by rw [hnumber (h.roots_met r hr), heq]⟩
      · refine .inr (.inl ⟨j, c, hj, e.found.values_addAll_mono _ hc, earlier, hearlier, ?_⟩)
        rw [hnumber (h.met j c (hj.trans hlt) hc earlier hearlier), heq]
      · exact .inr (.inr ⟨earlier, hearlier, by rw [hnumber (hmet earlier (by simp [hnext, hearlier])), heq]⟩)
    · rcases h.first_met_expand hnext hs with hroot | ⟨j, c, hj, hc, hedge⟩ | hedge
      · exact .inl hroot
      · exact .inr (.inl ⟨j, c, hj, e.found.values_addAll_mono _ hc, hedge⟩)
      · exact .inr (.inr hedge)

theorem explore (h : Explored next roots e) (bound : Nat) : Explored next roots (explore next bound e) := by
  induction bound generalizing e with
  | zero => exact h
  | succ bound ih =>
    rw [explore_succ]
    split
    · exact h
    · next a ha => exact ih (h.step ha)

end Explored

/-- Either every value is expanded in the end, or as many have been as the bound allows. -/
theorem explore_complete (next : α → List (ι × α)) (bound : Nat) (e : Expansion key ι) :
    (explore next bound e).found.values[(explore next bound e).rows.size]? = none ∨
      (explore next bound e).rows.size = e.rows.size + bound := by
  induction bound generalizing e with
  | zero => exact .inr rfl
  | succ bound ih =>
    rw [explore_succ]
    split
    · next hnone => exact .inl hnone
    · next a ha =>
      refine (ih (expand next e a)).imp_right fun h => ?_
      rw [h, expand, Array.size_push]
      omega

variable {next : α → List (ι × α)} {roots : List α} {bound : Nat}

theorem explored_ofRoots (next : α → List (ι × α)) (bound : Nat) (roots : List α) :
    Explored next roots (ofRoots key next bound roots) := (Explored.start roots).explore bound

omit [Std.TransOrd κ] [Std.LawfulEqOrd κ] in
/-- What holds of the roots and goes over along edges holds of all that is found. -/
theorem Explored.induction {e : Expansion key ι} (h : Explored next roots e) {P : α → Prop} (hroots : ∀ a ∈ roots, P a)
    (hnext : ∀ a, P a → ∀ edge ∈ next a, P edge.2) {i : Nat} {a : α} (ha : e.found.values[i]? = some a) : P a := by
  induction i using Nat.strong_induction_on generalizing a with
  | _ i ih =>
    rcases h.origin i a ha with hroot | ⟨j, b, -, hj, hb, edge, hedge, rfl⟩
    · exact hroots a hroot
    · exact hnext b (ih j hj hb) edge hedge

omit [Std.TransOrd κ] [Std.LawfulEqOrd κ] in
/-- Distinct values have distinct keys, so a finite set that holds all keys bounds their number. -/
theorem Explored.size_le_card {e : Expansion key ι} (h : Explored next roots e) {U : Finset κ}
    (hroots : ∀ a ∈ roots, key a ∈ U) (hnext : ∀ a, key a ∈ U → ∀ edge ∈ next a, key edge.2 ∈ U) :
    e.found.values.size ≤ U.card := by
  have hmem (i : Nat) (a : α) (ha : e.found.values[i]? = some a) : key a ∈ U :=
    h.induction (P := fun a => key a ∈ U) hroots hnext ha
  have hle := Finset.card_le_card_of_injOn (s := Finset.univ) (t := U)
    (fun i : Fin e.found.values.size => key e.found.values[i])
    (fun i _ => hmem i _ (Array.getElem?_eq_getElem i.isLt))
    (fun i _ j _ hij => Fin.ext (e.found.index_unique (Array.getElem?_eq_getElem i.isLt)
      (Array.getElem?_eq_getElem j.isLt) hij))
  rwa [Finset.card_univ, Fintype.card_fin] at hle

/-- With a bound on the keys, all that is found is expanded. -/
theorem rows_size_ofRoots {U : Finset κ} (hroots : ∀ a ∈ roots, key a ∈ U)
    (hnext : ∀ a, key a ∈ U → ∀ edge ∈ next a, key edge.2 ∈ U) (hU : U.card ≤ bound) :
    (ofRoots key next bound roots).rows.size = (ofRoots key next bound roots).found.values.size := by
  have hexplored : Explored next roots (ofRoots key next bound roots) := explored_ofRoots next bound roots
  apply le_antisymm hexplored.rows_le
  rcases explore_complete next bound (⟨Numbering.empty.addAll roots, #[]⟩ : Expansion key ι) with hnone | hsize
  · exact Array.getElem?_eq_none_iff.mp hnone
  · -- The bound has been used up, so at least as many values were found as there are keys.
    have hcard := hexplored.size_le_card hroots hnext
    have hrows : (ofRoots key next bound roots).rows.size = 0 + bound := hsize
    omega

omit [Std.LawfulEqOrd κ] in
/-- What is found is what edges lead to from the roots. -/
theorem mem_found_iff {e : Expansion key ι} (h : Explored next roots e) (hall : e.rows.size = e.found.values.size)
    (hkey : Function.Injective key) {a : α} :
    key a ∈ e.found.numbers ↔ ∃ r ∈ roots, Relation.ReflTransGen (fun a b => ∃ l, (l, b) ∈ next a) r a := by
  constructor
  · rw [Numbering.mem_numbers_iff]
    rintro ⟨i, b, hb, hk⟩
    obtain rfl := hkey hk
    refine h.induction (P := fun a => ∃ r ∈ roots, Relation.ReflTransGen _ r a) ?_ ?_ hb
    · exact fun r hr => ⟨r, hr, .refl⟩
    · exact fun c ⟨r, hr, hpath⟩ edge hedge => ⟨r, hr, hpath.tail ⟨edge.1, hedge⟩⟩
  · rintro ⟨r, hr, hpath⟩
    induction hpath with
    | refl => exact h.roots_met r hr
    | tail _ hedge ih =>
      obtain ⟨l, hl⟩ := hedge
      obtain ⟨i, b, hb, hk⟩ := e.found.mem_numbers_iff.mp ih
      obtain rfl := hkey hk
      exact h.met i b (hall ▸ (Array.getElem?_eq_some_iff.mp hb).1) hb _ hl

end Expansion

section Renamed

variable {α β κ μ ι : Type} [Ord κ] [Ord μ] {key : α → κ} {key' : β → μ} {f : α → β}

namespace Numbering

variable {n : Numbering key} {n' : Numbering key'}

/-- The same numbers, for values renamed. -/
def Renames (f : α → β) (n : Numbering key) (n' : Numbering key') : Prop := n'.values = n.values.map f

variable (hkey : ∀ a b, key' (f a) = key' (f b) ↔ key a = key b)
include hkey

theorem Renames.getElem?_numbers (h : Renames f n n') (a : α) : n'.numbers[key' (f a)]? = n.numbers[key a]? := by
  apply Option.ext
  intro i
  rw [n'.numbers_iff, n.numbers_iff, h, Array.getElem?_map, Option.map_map]
  simp only [Option.map_eq_some_iff, Function.comp_apply, hkey]

theorem Renames.number_eq (h : Renames f n n') (a : α) : n'.number (key' (f a)) = n.number (key a) := by
  rw [number, number, h.getElem?_numbers hkey]

variable [Std.TransOrd κ] [Std.LawfulEqOrd κ] [Std.TransOrd μ] [Std.LawfulEqOrd μ]

theorem Renames.add (h : Renames f n n') (a : α) : Renames f (n.add a) (n'.add (f a)) := by
  have hmem : key' (f a) ∈ n'.numbers ↔ key a ∈ n.numbers := by
    rw [Std.TreeMap.mem_iff_isSome_getElem?, Std.TreeMap.mem_iff_isSome_getElem?, h.getElem?_numbers hkey]
  rw [Renames, values_add, values_add]
  by_cases ha : key a ∈ n.numbers
  · rw [if_pos ha, if_pos (hmem.mpr ha), h]
  · rw [if_neg ha, if_neg fun h => ha (hmem.mp h), h, Array.map_push]

theorem Renames.addAll (h : Renames f n n') (bs : List α) : Renames f (n.addAll bs) (n'.addAll (bs.map f)) := by
  induction bs generalizing n n' with
  | nil => exact h
  | cons b bs ih => exact ih (h.add hkey b)

end Numbering

namespace Expansion

variable {e : Expansion key ι} {e' : Expansion key' ι} {next : α → List (ι × α)} {next' : β → List (ι × β)}

structure Renames (f : α → β) (e : Expansion key ι) (e' : Expansion key' ι) : Prop where
  found : e.found.Renames f e'.found
  rows_eq : e'.rows = e.rows

variable [Std.TransOrd κ] [Std.LawfulEqOrd κ] [Std.TransOrd μ] [Std.LawfulEqOrd μ]
  (hkey : ∀ a b, key' (f a) = key' (f b) ↔ key a = key b)
  (hnext : ∀ a, next' (f a) = (next a).map fun edge => (edge.1, f edge.2))
include hkey hnext

theorem Renames.expand (h : e.Renames f e') (a : α) : (e.expand next a).Renames f (e'.expand next' (f a)) := by
  have htargets : (next' (f a)).map Prod.snd = ((next a).map Prod.snd).map f := by
    rw [hnext, List.map_map, List.map_map]
    rfl
  have hfound := h.found.addAll hkey ((next a).map Prod.snd)
  rw [← htargets] at hfound
  refine ⟨hfound, ?_⟩
  show e'.rows.push ((next' (f a)).map fun edge => (edge.1, (e'.found.addAll _).number (key' edge.2))) =
    e.rows.push ((next a).map fun edge => (edge.1, (e.found.addAll _).number (key edge.2)))
  generalize e'.found.addAll ((next' (f a)).map Prod.snd) = found' at hfound
  rw [h.rows_eq, hnext, List.map_map]
  congr 2
  funext edge
  exact congrArg (edge.1, ·) (hfound.number_eq hkey edge.2)

theorem Renames.explore (h : e.Renames f e') (bound : Nat) :
    (Expansion.explore next bound e).Renames f (Expansion.explore next' bound e') := by
  induction bound generalizing e e' with
  | zero => exact h
  | succ bound ih =>
    rw [explore_succ, explore_succ, h.rows_eq, h.found, Array.getElem?_map]
    cases e.found.values[e.rows.size]? with
    | none => exact h
    | some a => exact ih (h.expand hkey hnext a)

/-- A search among renamed values finds the same, renamed. -/
theorem renames_ofRoots (bound : Nat) (roots : List α) :
    (ofRoots key next bound roots).Renames f (ofRoots key' next' bound (roots.map f)) := by
  apply Renames.explore hkey hnext
  have hempty : (Numbering.empty : Numbering key).Renames f (Numbering.empty : Numbering key') := by
    rw [Numbering.Renames, Numbering.empty, Numbering.empty, Array.map_empty]
  exact ⟨hempty.addAll hkey roots, rfl⟩

end Expansion

end Renamed

end PatternAutomata
