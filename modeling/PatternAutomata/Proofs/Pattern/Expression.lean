import Mathlib.Computability.Language
import PatternAutomata.Pattern.Construction

namespace PatternAutomata

open scoped Computability

theorem scalar?_toNat (c : Char) : scalar? c.toNat = some c := by
  have hvalid : c.toNat.isValidChar := c.valid
  rw [scalar?, dif_pos hvalid]
  rfl

theorem toNat_of_scalar? {n : Nat} {c : Char} (h : scalar? n = some c) : c.toNat = n := by
  rw [scalar?] at h
  by_cases hvalid : n.isValidChar
  · rw [dif_pos hvalid] at h
    obtain rfl := Option.some.inj h
    rfl
  · rw [dif_neg hvalid] at h
    cases h

theorem mem_charsBetween {first last c : Char} : c ∈ charsBetween first last ↔ first ≤ c ∧ c ≤ last := by
  show c ∈ charsBetween first last ↔ first.toNat ≤ c.toNat ∧ c.toNat ≤ last.toNat
  rw [charsBetween, List.mem_filterMap]
  constructor
  · rintro ⟨n, hn, hc⟩
    obtain rfl := toNat_of_scalar? hc
    rw [List.mem_range'_1] at hn
    omega
  · rintro ⟨hfirst, hlast⟩
    refine ⟨c.toNat, ?_, scalar?_toNat c⟩
    rw [List.mem_range'_1]
    omega

theorem charsBetween_eq_cons {first last : Char} (h : first ≤ last) :
    charsBetween first last = first :: (charsBetween first last).tail := by
  have hle : first.toNat ≤ last.toNat := h
  have hlen : last.toNat + 1 - first.toNat = (last.toNat - first.toNat) + 1 := by omega
  rw [charsBetween, hlen, List.range'_succ, List.filterMap_cons_some (scalar?_toNat first)]
  rfl

def letters (P : Char → Prop) : Language Char := {w | ∃ c, w = [c] ∧ P c}

theorem mem_letters {P : Char → Prop} {w : List Char} : w ∈ letters P ↔ ∃ c, w = [c] ∧ P c := Iff.rfl

theorem mem_letters_eq {c : Char} {w : List Char} : w ∈ letters (· = c) ↔ w = [c] := by
  rw [mem_letters]
  simp

theorem mem_kstar_letters {P : Char → Prop} {w : List Char} : w ∈ (letters P)∗ ↔ ∀ c ∈ w, P c := by
  rw [Language.mem_kstar]
  constructor
  · rintro ⟨pieces, rfl, hpieces⟩ c hc
    obtain ⟨piece, hpiece, hc⟩ := List.mem_flatten.mp hc
    obtain ⟨b, rfl, hb⟩ := mem_letters.mp (hpieces piece hpiece)
    obtain rfl := List.mem_singleton.mp hc
    exact hb
  · intro h
    refine ⟨w.map fun c => [c], ?_, ?_⟩
    · rw [← List.flatMap_def, List.flatMap_singleton']
    · intro piece hpiece
      obtain ⟨c, hc, rfl⟩ := List.mem_map.mp hpiece
      exact mem_letters.mpr ⟨c, rfl, h c hc⟩

theorem letters_or (P Q : Char → Prop) : letters (fun c => P c ∨ Q c) = letters P + letters Q := by
  ext w
  rw [Language.mem_add]
  simp only [mem_letters, and_or_left, exists_or]

def Operand.language (v : Operand) : Language Char := letters (v.contains · = true)

theorem Operand.language_char (c : Char) : (Operand.char c).language = letters (· = c) := by
  simp only [Operand.language, Operand.contains, beq_iff_eq]

namespace Repetition

def language : Repetition → Language Char → Language Char
  | star, l => l∗
  | plus, l => l * l∗
  | optional, l => l + 1

theorem kstar_plus (l : Language Char) : (l * l∗)∗ = l∗ := by
  apply le_antisymm
  · calc
      (l * l∗)∗ ≤ (l∗)∗ := kstar_mono mul_kstar_le_kstar
      _ = l∗ := kstar_idem l
  · apply kstar_mono
    calc
      l = l * 1 := (mul_one l).symm
      _ ≤ l * l∗ := mul_le_mul_right one_le_kstar l

theorem kstar_optional (l : Language Char) : (l + 1)∗ = l∗ := by
  apply le_antisymm
  · calc
      (l + 1)∗ ≤ (l∗)∗ := kstar_mono (add_le le_kstar one_le_kstar)
      _ = l∗ := kstar_idem l
  · exact kstar_mono (le_add_of_nonneg_right zero_le)

theorem kstar_add_one (l : Language Char) : l∗ + 1 = l∗ :=
  add_eq_left_iff_le.mpr one_le_kstar

theorem optional_mul_kstar (l : Language Char) : (l + 1) * l∗ = l∗ := by
  rw [add_mul, one_mul, add_eq_right_iff_le]
  exact mul_kstar_le_kstar

theorem plus_add_one (l : Language Char) : l * l∗ + 1 = l∗ := by
  rw [add_comm, one_add_mul_kstar]

/-- Stacked repetitions mean the same in either order. -/
theorem language_comm (r s : Repetition) (l : Language Char) :
    r.language (s.language l) = s.language (r.language l) := by
  cases r <;> cases s <;>
    simp only [language, kstar_plus, kstar_optional, kstar_idem, kstar_mul_kstar, kstar_add_one,
      optional_mul_kstar, plus_add_one]

theorem nil_mem_language {r : Repetition} (h : r ≠ .plus) (l : Language Char) : [] ∈ r.language l := by
  cases r with
  | star => exact Language.nil_mem_kstar l
  | plus => exact absurd rfl h
  | optional => exact Or.inr rfl

theorem one_mem_language (r : Repetition) {l : Language Char} {u : List Char} (h : u ∈ l) : u ∈ r.language l := by
  cases r with
  | star => exact Language.mem_kstar.mpr ⟨[u], by simp, by simpa using h⟩
  | plus => exact ⟨u, h, [], Language.nil_mem_kstar l, List.append_nil u⟩
  | optional => exact Or.inl h

theorem append_mem_language {r : Repetition} (hr : r ≠ .optional) {l : Language Char} {u v : List Char} (hu : u ∈ l)
    (hv : v ∈ r.language l) : u ++ v ∈ r.language l := by
  cases r with
  | star => exact (mul_kstar_le_kstar (a := l)) ⟨u, hu, v, hv, rfl⟩
  | plus => exact ⟨u, hu, v, (mul_kstar_le_kstar (a := l)) hv, rfl⟩
  | optional => exact absurd rfl hr

/-- The repeated language is the least one with no word, one word and one word before it. -/
theorem language_induction {r : Repetition} {l : Language Char} {P : List Char → Prop} (hnil : r ≠ .plus → P [])
    (hone : ∀ u ∈ l, P u) (happend : r ≠ .optional → ∀ u ∈ l, ∀ v, P v → P (u ++ v)) {w : List Char}
    (hw : w ∈ r.language l) : P w := by
  cases r with
  | star =>
    obtain ⟨ws, rfl, hws⟩ := Language.mem_kstar.mp hw
    clear hw
    induction ws with
    | nil => exact hnil (by decide)
    | cons u ws ih =>
      obtain ⟨hu, htail⟩ := List.forall_mem_cons.mp hws
      exact happend (by decide) u hu _ (ih htail)
  | plus =>
    obtain ⟨u, hu, v, hv, rfl⟩ := hw
    obtain ⟨ws, rfl, hws⟩ := Language.mem_kstar.mp hv
    clear hv
    dsimp only
    induction ws generalizing u with
    | nil =>
      rw [List.flatten_nil, List.append_nil]
      exact hone u hu
    | cons v ws ih =>
      obtain ⟨hv, htail⟩ := List.forall_mem_cons.mp hws
      exact happend (by decide) u hu _ (ih v hv htail)
  | optional =>
    rcases hw with hw | rfl
    · exact hone w hw
    · exact hnil (by decide)

end Repetition

def Junction.language : Junction → Language Char → Language Char → Language Char
  | concat, l, m => l * m
  | alternate, l, m => l + m

inductive Expression
  | operand (v : Operand)
  | repetition (r : Repetition) (e : Expression)
  | junction (j : Junction) (e f : Expression)
deriving DecidableEq

namespace Expression

def language : Expression → Language Char
  | operand v => v.language
  | repetition r e => r.language e.language
  | junction j e f => j.language e.language f.language

def operands : Expression → List Operand
  | operand v => [v]
  | repetition _ e => e.operands
  | junction _ e f => e.operands ++ f.operands

/-- Every operator after what it applies to. -/
def postorder : Expression → List Postfix
  | operand v => [.operand v]
  | repetition r e => e.postorder ++ [.operator (.repetition r)]
  | junction j e f => e.postorder ++ f.postorder ++ [.operator (.junction j)]

def Forward (e : Expression) : Prop := ∀ v ∈ e.operands, v.isBackward = false

instance (e : Expression) : Decidable e.Forward :=
  inferInstanceAs (Decidable (∀ v ∈ e.operands, v.isBackward = false))

theorem Forward.left {j : Junction} {e f : Expression} (h : Forward (junction j e f)) : e.Forward :=
  fun v hv => h v (List.mem_append_left _ hv)

theorem Forward.right {j : Junction} {e f : Expression} (h : Forward (junction j e f)) : f.Forward :=
  fun v hv => h v (List.mem_append_right _ hv)

theorem operand_mem_postorder {e : Expression} {v : Operand} : .operand v ∈ e.postorder ↔ v ∈ e.operands := by
  induction e with
  | operand u => simp [postorder, operands]
  | repetition r e ih => simp [postorder, operands, ih]
  | junction j e f ihe ihf => simp [postorder, operands, ihe, ihf]

theorem Forward.of_postorder_eq {e f : Expression} (he : e.Forward) (h : e.postorder = f.postorder) : f.Forward := by
  intro v hv
  rw [← operand_mem_postorder, ← h, operand_mem_postorder] at hv
  exact he v hv

/-- Words are made of characters of the operands. -/
theorem exists_operand_of_mem {e : Expression} {w : List Char} {c : Char} (hw : w ∈ e.language) (hc : c ∈ w) :
    ∃ v ∈ e.operands, v.contains c = true := by
  induction e generalizing w with
  | operand v =>
    obtain ⟨d, rfl, hd⟩ := hw
    obtain rfl := List.mem_singleton.mp hc
    exact ⟨v, List.mem_singleton_self v, hd⟩
  | repetition r e ih =>
    refine Repetition.language_induction (P := fun w => c ∈ w → ∃ v ∈ e.operands, v.contains c = true)
      ?_ ?_ ?_ hw hc
    · intro _ h
      cases h
    · intro u hu
      exact ih hu
    · intro _ u hu v hv h
      rcases List.mem_append.mp h with h | h
      · exact ih hu h
      · exact hv h
  | junction j e f ihe ihf =>
    have hsplit : (∃ u ∈ e.language, c ∈ u) ∨ ∃ u ∈ f.language, c ∈ u := by
      cases j with
      | concat =>
        obtain ⟨u, hu, v, hv, rfl⟩ := hw
        exact (List.mem_append.mp hc).imp (fun h => ⟨u, hu, h⟩) fun h => ⟨v, hv, h⟩
      | alternate => exact Or.imp (fun h => ⟨w, h, hc⟩) (fun h => ⟨w, h, hc⟩) hw
    rcases hsplit with ⟨u, hu, h⟩ | ⟨u, hu, h⟩
    · obtain ⟨v, hv, hcontains⟩ := ihe hu h
      exact ⟨v, List.mem_append_left _ hv, hcontains⟩
    · obtain ⟨v, hv, hcontains⟩ := ihf hu h
      exact ⟨v, List.mem_append_right _ hv, hcontains⟩

theorem exists_mem_language {e : Expression} (he : e.Forward) : ∃ w, w ∈ e.language := by
  induction e with
  | operand v =>
    cases v with
    | char c => exact ⟨[c], c, rfl, by simp [Operand.contains]⟩
    | range first last =>
      have hle : first ≤ last := by simpa [Operand.isBackward] using he (.range first last) List.mem_cons_self
      exact ⟨[first], first, rfl, by simp [Operand.contains, hle]⟩
  | repetition r e ih =>
    obtain ⟨w, hw⟩ := ih he
    exact ⟨w, r.one_mem_language hw⟩
  | junction j e f ihe ihf =>
    obtain ⟨u, hu⟩ := ihe he.left
    obtain ⟨v, hv⟩ := ihf he.right
    cases j with
    | concat => exact ⟨u ++ v, u, hu, v, hv, rfl⟩
    | alternate => exact ⟨u, .inl hu⟩

/-- Every character of the operands comes up in some word. -/
theorem exists_mem_of_operand {e : Expression} (he : e.Forward) {v : Operand} (hv : v ∈ e.operands) {c : Char}
    (hc : v.contains c = true) : ∃ w ∈ e.language, c ∈ w := by
  induction e with
  | operand u =>
    obtain rfl := List.mem_singleton.mp hv
    exact ⟨[c], ⟨c, rfl, hc⟩, List.mem_singleton_self c⟩
  | repetition r e ih =>
    obtain ⟨w, hw, hcw⟩ := ih he hv
    exact ⟨w, r.one_mem_language hw, hcw⟩
  | junction j e f ihe ihf =>
    -- In a concatenation the word is made longer by any word of the other side.
    rcases List.mem_append.mp hv with hv | hv
    · obtain ⟨u, hu, hcu⟩ := ihe he.left hv
      obtain ⟨w, hw⟩ := exists_mem_language he.right
      cases j with
      | concat => exact ⟨u ++ w, ⟨u, hu, w, hw, rfl⟩, List.mem_append_left w hcu⟩
      | alternate => exact ⟨u, .inl hu, hcu⟩
    · obtain ⟨w, hw⟩ := exists_mem_language he.left
      obtain ⟨u, hu, hcu⟩ := ihf he.right hv
      cases j with
      | concat => exact ⟨w ++ u, ⟨w, hw, u, hu, rfl⟩, List.mem_append_right w hcu⟩
      | alternate => exact ⟨u, .inr hu, hcu⟩

/-- An expression under repetitions, the first of them innermost. -/
def repeated (e : Expression) (rs : List Repetition) : Expression := rs.foldl (fun e r => repetition r e) e

theorem postorder_repeated (e : Expression) (rs : List Repetition) :
    (e.repeated rs).postorder = e.postorder ++ rs.map fun r => .operator (.repetition r) := by
  induction rs generalizing e with
  | nil => simp [repeated]
  | cons r rs ih =>
    change ((repetition r e).repeated rs).postorder = _
    rw [ih]
    simp [postorder]

theorem operands_repeated (e : Expression) (rs : List Repetition) : (e.repeated rs).operands = e.operands := by
  induction rs generalizing e with
  | nil => rfl
  | cons r rs ih => exact ih (repetition r e)

theorem language_repeated (e : Expression) (rs : List Repetition) :
    (e.repeated rs).language = rs.foldl (fun l r => r.language l) e.language := by
  induction rs generalizing e with
  | nil => rfl
  | cons r rs ih => exact ih (repetition r e)

end Expression

/-- A repetition may be moved out of those that follow it. -/
theorem Repetition.foldl_language_comm (r : Repetition) (rs : List Repetition) (l : Language Char) :
    rs.foldl (fun l r => r.language l) (r.language l) = r.language (rs.foldl (fun l r => r.language l) l) := by
  induction rs generalizing l with
  | nil => rfl
  | cons s rs ih => rw [List.foldl_cons, List.foldl_cons, language_comm s r, ih]

end PatternAutomata
