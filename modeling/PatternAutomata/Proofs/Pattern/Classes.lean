import PatternAutomata.Proofs.Pattern.Delimiters

namespace PatternAutomata

namespace Token

def classDepth (before : List Token) : Nat := (openAfter before).countP fun o => o.1 = .bracket

/-- Whether some class has been opened and not closed. -/
def inOpenClass (before : List Token) : Bool := 0 < classDepth before

def Unstacked (tokens : List Token) : Prop :=
  ∀ n (h : n < tokens.length), tokens[n].kind = .opening .bracket → inOpenClass (tokens.take n) = false

instance (tokens : List Token) : Decidable (Unstacked tokens) :=
  inferInstanceAs (Decidable (∀ n (_ : n < tokens.length), _ → _))

theorem Unstacked.of_append {before after : List Token} (h : Unstacked (before ++ after)) : Unstacked before := by
  intro n hn hkind
  have hlt : n < (before ++ after).length := by rw [List.length_append]; omega
  have hnone := h n hlt (by rw [List.getElem_append_left hn]; exact hkind)
  rwa [List.take_append_of_le_length hn.le] at hnone

theorem Unstacked.of_concat {before : List Token} {t : Token} (h : Unstacked (before ++ [t]))
    (ht : t.kind = .opening .bracket) : inOpenClass before = false := by
  have hnone := h before.length (by simp) (by simpa using ht)
  rwa [List.take_left] at hnone

theorem insertAlternation_congr {here here' : List Token → Bool} {before tokens : List Token}
    (h : ∀ read rest, tokens = read ++ rest → here (before ++ read) = here' (before ++ read)) :
    insertAlternation here before tokens = insertAlternation here' before tokens := by
  induction tokens generalizing before with
  | nil => rfl
  | cons t rest ih =>
    have hnow := h [] (t :: rest) rfl
    rw [List.append_nil] at hnow
    have hnext : ∀ read rest', rest = read ++ rest' → here (before ++ [t] ++ read) = here' (before ++ [t] ++ read) := by
      rintro read rest' rfl
      simpa using h (t :: read) rest' rfl
    rw [insertAlternation, insertAlternation, hnow, ih hnext]

/-- Each closing delimiter closes one of its own kind, where `opened` are the delimiters that are open at the start. -/
def Matched (opened : List (Delimiter × Nat)) : List Token → Prop
  | [] => True
  | t :: rest =>
    (∀ d, t.kind = .closing d → ∃ i outer, opened = (d, i) :: outer) ∧ Matched (shift opened t) rest

theorem matched_append {opened : List (Delimiter × Nat)} {before after : List Token} :
    Matched opened (before ++ after) ↔ Matched opened before ∧ Matched (before.foldl shift opened) after := by
  induction before generalizing opened with
  | nil => simp [Matched]
  | cons t before ih => rw [List.cons_append, Matched, Matched, ih, and_assoc, List.foldl_cons]

/-- Nested tokens leave open what was open before them. -/
theorem Nested.matched {tokens : List Token} (h : Nested tokens) (opened : List (Delimiter × Nat)) :
    Matched opened tokens ∧ tokens.foldl shift opened = opened := by
  induction h generalizing opened with
  | nil => exact ⟨trivial, rfl⟩
  | plain h =>
    exact ⟨⟨fun d hd => absurd hd (ne_closing_of_isDelimiter_eq_false h d), trivial⟩,
      shift_of_isDelimiter_eq_false h opened⟩
  | @group d o c ts ho hc _ ih =>
    have hopened : shift opened o = (d, o.position) :: opened := by simp [shift, ho]
    obtain ⟨hts, hfold⟩ := ih ((d, o.position) :: opened)
    constructor
    · rw [List.cons_append, Matched, hopened, matched_append, hfold]
      refine ⟨by simp [ho], hts, ?_, trivial⟩
      intro d' hd'
      rw [hc] at hd'
      cases hd'
      exact ⟨_, _, rfl⟩
    · rw [List.cons_append, List.foldl_cons, hopened, List.foldl_append, hfold]
      simp [shift, hc]
  | append _ _ ih ih' =>
    obtain ⟨hts, hfold⟩ := ih opened
    obtain ⟨hus, hfold'⟩ := ih' opened
    rw [matched_append, List.foldl_append, hfold]
    exact ⟨⟨hts, hus⟩, hfold'⟩

theorem Nested.matched_of_append {before after : List Token} (h : Nested (before ++ after)) : Matched [] before :=
  (matched_append.mp (h.matched []).1).1

theorem Matched.of_concat {before : List Token} {t : Token} (h : Matched [] (before ++ [t])) :
    Matched [] before ∧ ∀ d, t.kind = .closing d → ∃ i outer, openAfter before = (d, i) :: outer := by
  obtain ⟨hbefore, hlast, -⟩ := matched_append.mp h
  exact ⟨hbefore, hlast⟩

/-- What one token does to the number of open classes. -/
theorem classDepth_concat {before : List Token} {t : Token}
    (h : ∀ d, t.kind = .closing d → ∃ i outer, openAfter before = (d, i) :: outer) :
    classDepth (before ++ [t]) =
      if t.kind = .opening .bracket then classDepth before + 1
      else if t.kind = .closing .bracket then classDepth before - 1 else classDepth before := by
  rw [classDepth, openAfter_concat, shift]
  cases hk : t.kind with
  | operand v => rfl
  | operator o => rfl
  | opening d => cases d <;> simp [classDepth]
  | closing d =>
    obtain ⟨i, outer, hopen⟩ := h d hk
    cases d <;> simp [classDepth, hopen]

/-- The class that the last square bracket opens is open. -/
theorem Matched.inOpenClass {before : List Token} (h : Matched [] before) (hlast : afterOpening before = true) :
    inOpenClass before = true := by
  induction before using List.reverseRecOn with
  | nil => cases hlast
  | append_singleton before t ih =>
    obtain ⟨hbefore, hcloses⟩ := h.of_concat
    rw [afterOpening_concat] at hlast
    rw [Token.inOpenClass, classDepth_concat hcloses]
    split_ifs at hlast ⊢ with hopening hclosing
    · simp
    · exact ih hbefore hlast

/-- Where no class is opened in a class, one is open only if the last square bracket opened it. -/
theorem Matched.classDepth_eq {before : List Token} (h : Matched [] before) (hflat : Unstacked before) :
    classDepth before = (afterOpening before).toNat := by
  induction before using List.reverseRecOn with
  | nil => rfl
  | append_singleton before t ih =>
    obtain ⟨hbefore, hcloses⟩ := h.of_concat
    have hdepth := ih hbefore hflat.of_append
    rw [classDepth_concat hcloses, afterOpening_concat, hdepth]
    split_ifs with hopening hclosing
    · have hnone := hflat.of_concat hopening
      rw [Token.inOpenClass, hdepth] at hnone
      simpa using hnone
    · cases afterOpening before <;> rfl
    · rfl

/-- Opening up the classes of nested tokens puts `|` between two operands that follow each other exactly if the last
square bracket before them is an opening one, so only where a class is open; if no class is opened in a class, wherever
one is open. -/
structure OpensClasses (tokens : List Token) : Prop where
  last : expandClasses false false tokens = insertAlternation afterOpening [] tokens
  inside : ∀ before after, tokens = before ++ after → afterOpening before = true → inOpenClass before = true
  unstacked : Unstacked tokens → expandClasses false false tokens = insertAlternation inOpenClass [] tokens

theorem expandClasses_of_nested {tokens : List Token} (h : Nested tokens) : OpensClasses tokens := by
  have hpass : expandClasses false false tokens = insertAlternation afterOpening [] tokens := expandClasses_eq [] tokens
  refine ⟨hpass, ?_, ?_⟩
  · rintro before after rfl hlast
    exact h.matched_of_append.inOpenClass hlast
  · intro hflat
    rw [hpass]
    apply insertAlternation_congr
    rintro before after rfl
    rw [List.nil_append, inOpenClass, h.matched_of_append.classDepth_eq hflat.of_append]
    cases afterOpening before <;> rfl

theorem expandClasses_of_group_in_class : Nested (split 0 "[a(bé)]d".toList) ∧ Unstacked (split 0 "[a(bé)]d".toList) ∧
    OpensClasses (split 0 "[a(bé)]d".toList) := by
  have hnested : Nested (split 0 "[a(bé)]d".toList) := (firstFlaw?_eq_none_iff.mp (by decide)).1
  have hflat : Unstacked (split 0 "[a(bé)]d".toList) := by decide
  exact ⟨hnested, hflat, expandClasses_of_nested hnested⟩

/-- Once an inner class is closed, no `|` is read in the outer one. -/
theorem expandClasses_after_inner_class : Nested (split 0 "[a[b]cd]".toList) ∧
    expandClasses false false (split 0 "[a[b]cd]".toList) ≠
      insertAlternation inOpenClass [] (split 0 "[a[b]cd]".toList) :=
  ⟨(firstFlaw?_eq_none_iff.mp (by decide)).1, by decide⟩

end Token

end PatternAutomata
