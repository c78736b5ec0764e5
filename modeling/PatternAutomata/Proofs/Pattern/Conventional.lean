import PatternAutomata.Pattern.Conventional
import PatternAutomata.Proofs.Pipeline
import PatternAutomata.Proofs.Regex.Grammar

namespace PatternAutomata

namespace Conventional

theorem piece_operand {v : Operand} (hv : v.isBackward = false) : Regex.Piece (operand v) v.language := by
  cases v with
  | char c =>
    rw [Operand.language_char]
    exact .of_factor (.atom (.literal (Regex.writesChar_escape (by decide) c)))
  | range first last =>
    have hle : first ≤ last := by simpa [Operand.isBackward] using hv
    have hlanguage : (Operand.range first last).language = letters fun c => first ≤ c ∧ c ≤ last := by
      simp only [Operand.language, Operand.contains, Bool.and_eq_true, decide_eq_true_eq]
    have hwrites := Regex.Writes.range (Regex.writesChar_escape (by decide) first)
      (Regex.writesChar_escape (by decide) last) hle
    have htext : operand (.range first last) =
        '[' :: Regex.escape first ++ '-' :: Regex.escape last ++ [']'] := by
      simp [operand]
    rw [hlanguage, htext]
    exact .of_factor (.atom hwrites)

def textOf (e : Expression) : List Char := Id.run (construction.fold e)

/-- It stands for the words of the expression, alone or as a part. -/
theorem piece_textOf {e : Expression} (he : e.Forward) : Regex.Piece (textOf e) e.language := by
  induction e with
  | operand v => exact piece_operand (he v (List.mem_singleton_self v))
  | repetition r e ih => exact (ih he).repetition r
  | junction j e f ihe ihf =>
    cases j with
    | concat => exact (ihe he.left).concat (ihf he.right)
    | alternate =>
      have hpiece := (ihe he.left).alternate (ihf he.right)
      have htext : textOf (.junction .alternate e f) =
          '(' :: '?' :: ':' :: (textOf e ++ '|' :: textOf f) ++ [')'] := by
        show grouped (textOf e ++ ['|'] ++ textOf f) = _
        simp [grouped]
      rw [htext]
      exact hpiece

theorem ofPattern?_eq_ok {pattern : String} {e : Expression} (he : e.Forward)
    (hpattern : Postfix.ofPattern? pattern = .ok e.postorder) :
    ofPattern? pattern = .ok (String.ofList (textOf e)) := by
  have hbuild : Id.run (construction.build pattern e.postorder) = .ok (textOf e) :=
    construction.build_postorder pattern he
  rw [ofPattern?, hpattern]
  show (Id.run (construction.build pattern e.postorder) >>= fun text => pure (String.ofList text)) = _
  rw [hbuild]
  rfl

/-- The conventional text of a pattern writes one expression and no other, which is the one that is read from it and
has the words that each stage accepts. -/
def Rewritten (pattern : String) (stages : Stages) : Prop :=
  ∃ text r, ofPattern? pattern = .ok text ∧ (∀ s, Regex.Writes .alternatives text.toList s ↔ s = r) ∧
    Regex.ofText? text.toList = some r ∧ ∀ w, (stages.nfa.accepts w = true ↔ w ∈ r.language) ∧
      (stages.dfa.accepts w = true ↔ w ∈ r.language) ∧ (stages.minimal.dfa.accepts w = true ↔ w ∈ r.language)

theorem writes_of_compile {pattern : String} {stages : Stages} (h : compile pattern = .ok stages) :
    Rewritten pattern stages := by
  obtain ⟨n, hn, rfl⟩ := compile_eq_ok_iff.mp h
  obtain ⟨e, he, hpattern, rfl⟩ := Nfa.ofPattern?_eq_ok_iff.mp hn
  obtain ⟨r, hr, hlanguage⟩ := (piece_textOf he).alone
  have hfaithful := Nfa.faithful_fold (.empty 0) he
  have hwrites : Regex.Writes .alternatives (String.ofList (textOf e)).toList r := by
    rw [String.toList_ofList]
    exact .sequence hr
  refine ⟨_, r, ofPattern?_eq_ok he hpattern, ?_, hwrites.ofText?_eq, ?_⟩
  · intro s
    constructor
    · exact fun hs => hs.unique hwrites
    · rintro rfl
      exact hwrites
  · intro w
    have hnfa := hfaithful.accepts_iff (w := w)
    rw [hlanguage]
    refine ⟨hnfa, ?_, ?_⟩
    · rw [← hnfa]
      exact Bool.eq_iff_iff.mp (Nfa.accepts_toDfa hfaithful.sound w)
    · rw [← hnfa]
      exact Bool.eq_iff_iff.mp (hfaithful.accepts_minimize w)

theorem writes_of_special_characters : ∃ stages, compile "(a|[#-.])*^" = .ok stages ∧
    Rewritten "(a|[#-.])*^" stages := by
  obtain ⟨n, hn, h⟩ := exists_compile_of_isOk "(a|[#-.])*^" (by decide +kernel)
  exact ⟨_, h, writes_of_compile h⟩

end Conventional

end PatternAutomata
