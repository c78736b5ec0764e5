import Mathlib.Computability.MyhillNerode
import Mathlib.Tactic.Abel
import PatternAutomata.Proofs.Regex.Grammar
import PatternAutomata.Regex

namespace PatternAutomata

open scoped Computability

def gate (b : Bool) : Language Char := if b then 1 else 0

theorem nil_mem_gate {b : Bool} : [] ∈ gate b ↔ b = true := by
  cases b <;> simp [gate, Language.notMem_zero]

theorem gate_or (a b : Bool) : gate (a || b) = gate a + gate b := by
  cases a <;> cases b <;> simp [gate]

theorem gate_and (a b : Bool) : gate (a && b) = gate a * gate b := by
  cases a <;> cases b <;> simp [gate]

section Quotients

variable {l m : Language Char} (c : Char)

theorem nil_mem_mul : [] ∈ l * m ↔ [] ∈ l ∧ [] ∈ m := by
  rw [Language.mem_mul]
  constructor
  · rintro ⟨u, hu, v, hv, huv⟩
    obtain ⟨rfl, rfl⟩ := List.append_eq_nil_iff.mp huv
    exact ⟨hu, hv⟩
  · exact fun ⟨hl, hm⟩ => ⟨[], hl, [], hm, rfl⟩

theorem quotient_gate (b : Bool) : (gate b).leftQuotient [c] = 0 := by
  ext w
  cases b <;> simp [gate, Language.notMem_zero]

theorem quotient_letters (P : Char → Prop) [Decidable (P c)] : (letters P).leftQuotient [c] = gate (decide (P c)) := by
  ext w
  rw [Language.mem_leftQuotient, mem_letters, gate]
  by_cases hc : P c
  · simp [hc]
  · simp [hc, Language.notMem_zero]

theorem quotient_add : (l + m).leftQuotient [c] = l.leftQuotient [c] + m.leftQuotient [c] := rfl

theorem quotient_mul {b : Bool} (hb : b = true ↔ [] ∈ l) :
    (l * m).leftQuotient [c] = l.leftQuotient [c] * m + gate b * m.leftQuotient [c] := by
  ext w
  rw [Language.mem_leftQuotient, Language.mem_add, Language.mem_mul, Language.mem_mul, Language.mem_mul]
  constructor
  · rintro ⟨u, hu, v, hv, huv⟩
    cases u with
    | nil =>
      obtain rfl : v = c :: w := huv
      exact .inr ⟨[], nil_mem_gate.mpr (hb.mpr hu), w, hv, rfl⟩
    | cons a u =>
      obtain ⟨rfl, rfl⟩ := List.cons.inj huv
      exact .inl ⟨u, hu, v, hv, rfl⟩
  · rintro (⟨u, hu, v, hv, rfl⟩ | ⟨u, hu, v, hv, rfl⟩)
    · exact ⟨c :: u, hu, v, hv, rfl⟩
    · cases b with
      | false => exact absurd hu (Language.notMem_zero u)
      | true =>
        obtain rfl : u = [] := hu
        exact ⟨[], hb.mp rfl, c :: v, hv, rfl⟩

theorem quotient_kstar : (l∗).leftQuotient [c] = l.leftQuotient [c] * l∗ := by
  ext w
  rw [Language.mem_leftQuotient, Language.mem_mul]
  constructor
  · intro hw
    obtain ⟨words, hwords, hne⟩ := Language.mem_kstar_iff_exists_nonempty.mp hw
    cases words with
    | nil => cases hwords
    | cons u words =>
      obtain ⟨hu, hrest⟩ := List.forall_mem_cons.mp hne
      obtain ⟨a, u, rfl⟩ := List.exists_cons_of_ne_nil hu.2
      obtain ⟨rfl, rfl⟩ := List.cons.inj hwords
      exact ⟨u, hu.1, words.flatten, Language.join_mem_kstar fun v hv => (hrest v hv).1, rfl⟩
  · rintro ⟨u, hu, v, hv, rfl⟩
    exact mul_kstar_le_kstar (a := l) ⟨c :: u, hu, v, hv, rfl⟩

/-- What a character leaves of a word of the repetition, whether or not the language has the empty word. -/
theorem quotient_plus : (l * l∗).leftQuotient [c] = l.leftQuotient [c] * l∗ := by
  classical
  rw [quotient_mul c (b := decide ([] ∈ l)) decide_eq_true_iff, quotient_kstar]
  cases decide ([] ∈ l) <;> simp [gate]

end Quotients

namespace Marked

/-- The words that an expression matches, whatever is marked in it. -/
def language : Marked → Language Char
  | empty => 1
  | range first last _ => letters fun c => first ≤ c ∧ c ≤ last
  | seq _ _ _ r s => r.language * s.language
  | alt _ _ _ r s => r.language + s.language
  | plus _ _ _ r => r.language * r.language∗
  | optional _ _ r => r.language + 1

/-- The words that complete a match from one of the marks. -/
def remainder : Marked → Language Char
  | empty => 0
  | range _ _ mark => gate mark
  | seq _ _ _ r s => r.remainder * s.language + s.remainder
  | alt _ _ _ r s => r.remainder + s.remainder
  | plus _ _ _ r => r.remainder * r.language∗
  | optional _ _ r => r.remainder

inductive Sound : Marked → Prop
  | empty : Sound empty
  | range (first last : Char) (mark : Bool) : Sound (range first last mark)
  | sequence {r s : Marked} : Sound r → Sound s → Sound (sequence r s)
  | choice {r s : Marked} : Sound r → Sound s → Sound (choice r s)
  | repeated {r : Marked} : Sound r → Sound (repeated r)
  | possible {r : Marked} : Sound r → Sound (possible r)

namespace Sound

variable {m : Marked}

theorem isNullable_iff (h : m.Sound) : m.isNullable = true ↔ [] ∈ m.language := by
  induction h with
  | empty => exact iff_of_true rfl rfl
  | range => exact iff_of_false Bool.false_ne_true fun ⟨_, hw, _⟩ => List.cons_ne_nil _ _ hw.symm
  | @sequence r s _ _ ihr ihs =>
    show (r.isNullable && s.isNullable) = true ↔ [] ∈ r.language * s.language
    rw [Bool.and_eq_true, ihr, ihs, nil_mem_mul]
  | @choice r s _ _ ihr ihs =>
    show (r.isNullable || s.isNullable) = true ↔ [] ∈ r.language + s.language
    rw [Bool.or_eq_true, ihr, ihs, Language.mem_add]
  | @repeated r _ ih =>
    show r.isNullable = true ↔ [] ∈ r.language * r.language∗
    rw [ih, nil_mem_mul, and_iff_left (Language.nil_mem_kstar _)]
  | possible => exact iff_of_true rfl (.inr rfl)

theorem isComplete_iff (h : m.Sound) : m.isComplete = true ↔ [] ∈ m.remainder := by
  induction h with
  | empty => exact iff_of_false Bool.false_ne_true (Language.notMem_zero [])
  | range _ _ mark => exact nil_mem_gate.symm
  | @sequence r s _ hs ihr ihs =>
    show (r.isComplete && s.isNullable || s.isComplete) = true ↔ [] ∈ r.remainder * s.language + s.remainder
    rw [Bool.or_eq_true, Bool.and_eq_true, ihr, hs.isNullable_iff, ihs, Language.mem_add, nil_mem_mul]
  | @choice r s _ _ ihr ihs =>
    show (r.isComplete || s.isComplete) = true ↔ [] ∈ r.remainder + s.remainder
    rw [Bool.or_eq_true, ihr, ihs, Language.mem_add]
  | @repeated r _ ih =>
    show r.isComplete = true ↔ [] ∈ r.remainder * r.language∗
    rw [ih, nil_mem_mul, and_iff_left (Language.nil_mem_kstar _)]
  | possible _ ih => exact ih

theorem remainder_eq_zero (h : m.Sound) (hlive : m.isLive = false) : m.remainder = 0 := by
  induction h with
  | empty => rfl
  | range _ _ mark =>
    obtain rfl : mark = false := hlive
    rfl
  | @sequence r s _ _ ihr ihs =>
    obtain ⟨hr, hs⟩ := Bool.or_eq_false_iff.mp hlive
    show r.remainder * s.language + s.remainder = 0
    rw [ihr hr, ihs hs, zero_mul, add_zero]
  | @choice r s _ _ ihr ihs =>
    obtain ⟨hr, hs⟩ := Bool.or_eq_false_iff.mp hlive
    show r.remainder + s.remainder = 0
    rw [ihr hr, ihs hs, add_zero]
  | @repeated r _ ih =>
    show r.remainder * r.language∗ = 0
    rw [ih hlive, zero_mul]
  | possible _ ih => exact ih hlive

end Sound

/-- `m'` has the marks of `m` moved on over `c`, and where the expression is entered, those that `c` begins. -/
structure Moves (c : Char) (entered : Bool) (m m' : Marked) : Prop where
  sound : m'.Sound
  language_eq : m'.language = m.language
  remainder_eq : m'.remainder = m.remainder.leftQuotient [c] + gate entered * m.language.leftQuotient [c]

namespace Moves

variable {c : Char} {entered : Bool} {m r r' s s' : Marked}

theorem idle (h : m.Sound) (hidle : (!entered && !m.isLive) = true) : Moves c entered m m := by
  simp only [Bool.and_eq_true, Bool.not_eq_true'] at hidle
  refine ⟨h, rfl, ?_⟩
  rw [h.remainder_eq_zero hidle.2, hidle.1]
  show 0 = (gate false).leftQuotient [c] + 0 * _
  rw [quotient_gate, zero_mul, add_zero]

theorem empty : Moves c entered empty empty := by
  refine ⟨.empty, rfl, ?_⟩
  show 0 = (gate false).leftQuotient [c] + gate entered * (gate true).leftQuotient [c]
  rw [quotient_gate, quotient_gate, mul_zero, add_zero]

theorem range (first last : Char) (mark : Bool) : Moves c entered (range first last mark)
    (range first last (entered && first ≤ c && c ≤ last)) := by
  refine ⟨.range _ _ _, rfl, ?_⟩
  show gate (entered && decide (first ≤ c) && decide (c ≤ last)) = (gate mark).leftQuotient [c] +
    gate entered * (letters fun c => first ≤ c ∧ c ≤ last).leftQuotient [c]
  rw [quotient_gate, quotient_letters, zero_add, ← gate_and, Bool.decide_and, Bool.and_assoc]

theorem sequence (hr : r.Sound) (h : Moves c entered r r')
    (h' : Moves c (r.isComplete || entered && r.isNullable) s s') :
    Moves c entered (sequence r s) (sequence r' s') := by
  refine ⟨h.sound.sequence h'.sound, congrArg₂ (· * ·) h.language_eq h'.language_eq, ?_⟩
  show r'.remainder * s'.language + s'.remainder =
    (r.remainder * s.language + s.remainder).leftQuotient [c] +
      gate entered * (r.language * s.language).leftQuotient [c]
  rw [h.remainder_eq, h'.remainder_eq, h'.language_eq, quotient_add, quotient_mul c hr.isComplete_iff,
    quotient_mul c hr.isNullable_iff, gate_or, gate_and]
  simp only [add_mul, mul_add, mul_assoc]
  abel

theorem choice (h : Moves c entered r r') (h' : Moves c entered s s') :
    Moves c entered (choice r s) (choice r' s') := by
  refine ⟨h.sound.choice h'.sound, congrArg₂ (· + ·) h.language_eq h'.language_eq, ?_⟩
  show r'.remainder + s'.remainder =
    (r.remainder + s.remainder).leftQuotient [c] + gate entered * (r.language + s.language).leftQuotient [c]
  rw [h.remainder_eq, h'.remainder_eq, quotient_add, quotient_add, mul_add]
  abel

theorem repeated (hr : r.Sound) (h : Moves c (entered || r.isComplete) r r') :
    Moves c entered (repeated r) (repeated r') := by
  refine ⟨h.sound.repeated, congrArg (fun l => l * l∗) h.language_eq, ?_⟩
  show r'.remainder * r'.language∗ =
    (r.remainder * r.language∗).leftQuotient [c] + gate entered * (r.language * r.language∗).leftQuotient [c]
  rw [h.remainder_eq, h.language_eq, quotient_mul c hr.isComplete_iff, quotient_kstar, quotient_plus, gate_or]
  simp only [add_mul, mul_assoc]
  abel

theorem possible (h : Moves c entered r r') : Moves c entered (possible r) (possible r') := by
  refine ⟨h.sound.possible, congrArg (· + 1) h.language_eq, ?_⟩
  show r'.remainder = r.remainder.leftQuotient [c] + gate entered * (r.language + gate true).leftQuotient [c]
  rw [h.remainder_eq, quotient_add, quotient_gate, add_zero]

end Moves

theorem Sound.moves {m : Marked} (h : m.Sound) (c : Char) (entered : Bool) :
    Moves c entered m (m.advance c entered) := by
  -- An expression that is neither entered nor marked is given back as it is, which is why each case is split.
  induction h generalizing entered with
  | empty =>
    rw [advance.eq_def]
    split
    · exact .empty
    · exact .empty
  | range first last mark =>
    rw [advance.eq_def]
    split
    · next hidle => exact .idle (.range first last mark) hidle
    · exact .range first last mark
  | @sequence r s hr hs ihr ihs =>
    rw [advance.eq_def]
    split
    · next hidle => exact .idle (hr.sequence hs) hidle
    · exact .sequence hr (ihr _) (ihs _)
  | choice hr hs ihr ihs =>
    rw [advance.eq_def]
    split
    · next hidle => exact .idle (hr.choice hs) hidle
    · exact .choice (ihr _) (ihs _)
  | repeated hr ih =>
    rw [advance.eq_def]
    split
    · next hidle => exact .idle hr.repeated hidle
    · exact .repeated hr (ih _)
  | possible hr ih =>
    rw [advance.eq_def]
    split
    · next hidle => exact .idle hr.possible hidle
    · exact .possible (ih _)

theorem Sound.isComplete_foldl_advance {m : Marked} (h : m.Sound) (w : List Char) :
    (w.foldl (fun m c => m.advance c false) m).isComplete = true ↔ w ∈ m.remainder := by
  induction w generalizing m with
  | nil => exact h.isComplete_iff
  | cons c w ih =>
    have hmoves := h.moves c false
    rw [List.foldl_cons, ih hmoves.sound, hmoves.remainder_eq]
    show w ∈ m.remainder.leftQuotient [c] + 0 * _ ↔ c :: w ∈ m.remainder
    rw [zero_mul, add_zero]
    rfl

theorem sound_ofRegex (r : Regex) : (ofRegex r).Sound := by
  induction r with
  | empty => exact .empty
  | literal c => exact .range c c false
  | range first last => exact .range first last false
  | group r ih => exact ih
  | seq r s ihr ihs => exact ihr.sequence ihs
  | alt r s ihr ihs => exact ihr.choice ihs
  | star r ih => exact ih.repeated.possible
  | plus r ih => exact ih.repeated
  | optional r ih => exact ih.possible

theorem language_ofRegex (r : Regex) : (ofRegex r).language = r.language := by
  induction r with
  | empty => rfl
  | literal c =>
    show letters (fun d => c ≤ d ∧ d ≤ c) = letters (· = c)
    congr
    funext d
    rw [eq_iff_iff, and_comm]
    exact Std.le_antisymm_iff
  | range first last => rfl
  | group r ih => exact ih
  | seq r s ihr ihs => exact congrArg₂ (· * ·) ihr ihs
  | alt r s ihr ihs => exact congrArg₂ (· + ·) ihr ihs
  | star r ih =>
    show (ofRegex r).language * (ofRegex r).language∗ + 1 = r.language∗
    rw [ih, Repetition.plus_add_one]
  | plus r ih => exact congrArg (fun l => l * l∗) ih
  | optional r ih => exact congrArg (· + 1) ih

theorem isLive_ofRegex (r : Regex) : (ofRegex r).isLive = false := by
  induction r with
  | empty | literal _ | range _ _ => rfl
  | group r ih | star r ih | plus r ih | optional r ih => exact ih
  | seq r s ihr ihs | alt r s ihr ihs => exact Bool.or_eq_false_iff.mpr ⟨ihr, ihs⟩

/-- Matching by marks accepts the words of the expression. -/
theorem accepts_ofRegex_iff (r : Regex) (w : List Char) : (ofRegex r).accepts w = true ↔ w ∈ r.language := by
  have hsound := sound_ofRegex r
  rw [← language_ofRegex]
  cases w with
  | nil => exact hsound.isNullable_iff
  | cons c w =>
    have hmoves := hsound.moves c true
    rw [accepts, hmoves.sound.isComplete_foldl_advance, hmoves.remainder_eq,
      hsound.remainder_eq_zero (isLive_ofRegex r)]
    show w ∈ (gate false).leftQuotient [c] + 1 * (ofRegex r).language.leftQuotient [c] ↔ _
    rw [quotient_gate, zero_add, one_mul]
    rfl

end Marked

end PatternAutomata
