import PatternAutomata.Proofs.Nfa.Thompson
import PatternAutomata.Proofs.Pattern.Ordering
import PatternAutomata.Proofs.Pattern.Placement

namespace PatternAutomata

/-- The operand does not run backwards and does not contain ε. -/
def Operand.Usable (v : Operand) : Prop := v.isBackward = false ∧ v.contains epsilon = false

namespace Token

def AllUsable (tokens : List Token) : Prop := ∀ t ∈ tokens, ∀ v, t.kind = .operand v → v.Usable

theorem fault?_eq_none_iff {t : Token} : t.fault? = none ↔ ∀ v, t.kind = .operand v → v.Usable := by
  unfold fault? Operand.Usable
  split
  · next first last h =>
    simp only [h, Kind.operand.injEq, forall_eq', Operand.isBackward, decide_eq_false_iff_not]
    split_ifs with hback heps
    · simp [hback]
    · simp [heps]
    · simp [hback, heps]
  · next c h =>
    simp only [h, Kind.operand.injEq, forall_eq', Operand.isBackward, Operand.contains, true_and, beq_eq_false_iff_ne,
      ne_comm (a := epsilon)]
    split_ifs with heps
    · simp [heps]
    · simp [heps]
  · next hrange hchar =>
    refine iff_of_true rfl ?_
    intro v hv
    cases v with
    | char c => exact absurd hv (hchar c)
    | range first last => exact absurd hv (hrange first last)

theorem ofPattern?_eq_ok_iff {pattern : String} {tokens : List Token} :
    ofPattern? pattern = .ok tokens ↔ tokens = split 0 pattern.toList ∧ AllUsable tokens := by
  have hnone : (split 0 pattern.toList).findSome? fault? = none ↔ AllUsable (split 0 pattern.toList) := by
    rw [List.findSome?_eq_none_iff]
    simp only [fault?_eq_none_iff, AllUsable]
  rw [ofPattern?_eq]
  cases h : (split 0 pattern.toList).findSome? fault? with
  | some cause =>
    rw [h] at hnone
    constructor
    · intro h
      cases h
    · rintro ⟨rfl, husable⟩
      cases hnone.mpr husable
  | none =>
    constructor
    · intro h'
      obtain rfl := Except.ok.inj h'
      exact ⟨rfl, hnone.mp h⟩
    · rintro ⟨rfl, -⟩
      rfl

/-- Opening up classes keeps the operands. -/
theorem operands_expandClasses (inClass afterOperand : Bool) (tokens : List Token) :
    ((expandClasses inClass afterOperand tokens).map Token.kind).filterMap Grammar.operand? =
      (tokens.map Token.kind).filterMap Grammar.operand? := by
  induction tokens generalizing inClass afterOperand with
  | nil => rfl
  | cons t rest ih =>
    rw [expandClasses]
    split
    · simp [List.filterMap_cons, ih]
    · simp [List.filterMap_cons, ih]
    · split
      · simp [List.filterMap_cons, ih, Grammar.operand?]
      · simp [List.filterMap_cons, ih]
    · simp [List.filterMap_cons, ih]

end Token

theorem Postfix.ofPattern?_eq_ok_iff {pattern : String} {items : List Postfix} :
    ofPattern? pattern = .ok items ↔ Token.AllUsable (Token.split 0 pattern.toList) ∧
      order none [] (Token.explicit (Token.split 0 pattern.toList)) = .ok items := by
  have hmap {x : Except PatternError.Cause (List Postfix)} :
      x.mapError (PatternError.mk pattern) = .ok items ↔ x = .ok items := by
    cases x <;> simp [Except.mapError]
  rw [ofPattern?, hmap]
  constructor
  · intro h
    cases htokens : Token.ofPattern? pattern with
    | error cause =>
      rw [htokens] at h
      cases h
    | ok tokens =>
      rw [htokens] at h
      obtain ⟨rfl, husable⟩ := Token.ofPattern?_eq_ok_iff.mp htokens
      exact ⟨husable, h⟩
  · rintro ⟨husable, h⟩
    rw [Token.ofPattern?_eq_ok_iff.mpr ⟨rfl, husable⟩]
    exact h

namespace Grammar

variable {pattern : String} {e : Expression}

/-- The operands of a reading are those of the pattern. -/
theorem Derives.mem_operands_iff (h : Derives .alternatives (kindsOf pattern) e) {v : Operand} :
    v ∈ e.operands ↔ ∃ t ∈ Token.split 0 pattern.toList, t.kind = .operand v := by
  have hoperand (k : Token.Kind) : operand? k = some v ↔ k = .operand v := by
    cases k <;> simp [operand?]
  rw [h.operands_eq, kindsOf_eq, Token.operands_expandClasses, List.mem_filterMap]
  simp only [hoperand, exists_eq_right, List.mem_map]

theorem Derives.usable (husable : Token.AllUsable (Token.split 0 pattern.toList))
    (h : Derives .alternatives (kindsOf pattern) e) : ∀ v ∈ e.operands, v.Usable := by
  intro v hv
  obtain ⟨t, ht, hkind⟩ := h.mem_operands_iff.mp hv
  exact husable t ht v hkind

/-- A pattern whose operands are usable has the postfix form of each of its readings, up to the order of
stacked repetitions. -/
theorem exists_postfix (husable : Token.AllUsable (Token.split 0 pattern.toList))
    (h : Derives .alternatives (kindsOf pattern) e) :
    ∃ f : Expression, f.Forward ∧ Postfix.ofPattern? pattern = .ok f.postorder ∧ f.language = e.language := by
  have hoperand := h.usable husable
  rw [kindsOf_eq] at h
  obtain ⟨f, horder, hlanguage, hoperands⟩ := h.order_eq
  refine ⟨f, ?_, Postfix.ofPattern?_eq_ok_iff.mpr ⟨husable, horder⟩, hlanguage⟩
  intro v hv
  rw [hoperands] at hv
  exact (hoperand v hv).1

/-- A reading of a pattern with usable operands has an automaton for its words. -/
theorem exists_faithful (husable : Token.AllUsable (Token.split 0 pattern.toList))
    (h : Derives .alternatives (kindsOf pattern) e) : ∃ n, Nfa.ofPattern? pattern = .ok n ∧ n.Faithful 0 e.language := by
  obtain ⟨f, hforward, hpostfix, hlanguage⟩ := exists_postfix husable h
  refine ⟨_, Nfa.ofPattern?_eq_ok_iff.mpr ⟨f, hforward, hpostfix, rfl⟩, ?_⟩
  rw [← hlanguage]
  exact Nfa.faithful_fold (.empty 0) hforward

/-- A pattern with an automaton has usable operands and a reading. -/
theorem exists_derives_of_ofPattern? {n : Nfa} (h : Nfa.ofPattern? pattern = .ok n) :
    Token.AllUsable (Token.split 0 pattern.toList) ∧ ∃ e, Derives .alternatives (kindsOf pattern) e := by
  obtain ⟨f, -, hpostfix, -⟩ := Nfa.ofPattern?_eq_ok_iff.mp h
  obtain ⟨husable, horder⟩ := Postfix.ofPattern?_eq_ok_iff.mp hpostfix
  rw [kindsOf_eq]
  exact ⟨husable, exists_derives_of_order horder⟩

/-- All readings of a pattern with an automaton stand for the same words. -/
theorem language_eq {n : Nfa} (h : Nfa.ofPattern? pattern = .ok n) (he : Derives .alternatives (kindsOf pattern) e) :
    language pattern = e.language := by
  obtain ⟨husable, -⟩ := exists_derives_of_ofPattern? h
  -- Every reading gives an automaton of the pattern, and there is only one.
  have hword (f : Expression) (hf : Derives .alternatives (kindsOf pattern) f) (w : List Char) :
      n.accepts w = true ↔ w ∈ f.language := by
    obtain ⟨m, hm, hfaithful⟩ := exists_faithful husable hf
    obtain rfl : n = m := Except.ok.inj (h.symm.trans hm)
    exact hfaithful.accepts_iff
  ext w
  rw [mem_language]
  constructor
  · rintro ⟨f, hf, hw⟩
    rw [← hword e he, hword f hf]
    exact hw
  · intro hw
    exact ⟨e, he, hw⟩

/-- The automaton of a pattern is one for the language of the pattern. -/
theorem faithful_of_ofPattern? {n : Nfa} (h : Nfa.ofPattern? pattern = .ok n) : n.Faithful 0 (language pattern) := by
  obtain ⟨husable, e, he⟩ := exists_derives_of_ofPattern? h
  obtain ⟨m, hm, hfaithful⟩ := exists_faithful husable he
  obtain rfl : n = m := Except.ok.inj (h.symm.trans hm)
  rw [language_eq h he]
  exact hfaithful

/-- No word of a pattern with an automaton contains ε. -/
theorem epsilon_not_mem {n : Nfa} (h : Nfa.ofPattern? pattern = .ok n) {w : List Char} (hw : w ∈ language pattern) :
    epsilon ∉ w := by
  obtain ⟨husable, -⟩ := exists_derives_of_ofPattern? h
  obtain ⟨e, he, hw⟩ := mem_language.mp hw
  intro hepsilon
  obtain ⟨v, hv, hcontains⟩ := Expression.exists_operand_of_mem hw hepsilon
  rw [(he.usable husable v hv).2] at hcontains
  cases hcontains

/-- A pattern has an automaton exactly if its operands are usable and its tokens, with classes opened up,
can be derived. -/
theorem exists_automaton_iff (pattern : String) :
    (∃ n, Nfa.ofPattern? pattern = .ok n) ↔ Token.AllUsable (Token.split 0 pattern.toList) ∧
      ∃ e, Derives .alternatives
        ((Token.expandClasses false false (Token.split 0 pattern.toList)).map Token.kind) e := by
  rw [← kindsOf_eq]
  constructor
  · rintro ⟨n, h⟩
    exact exists_derives_of_ofPattern? h
  · rintro ⟨husable, e, he⟩
    obtain ⟨n, hn, -⟩ := exists_faithful husable he
    exact ⟨n, hn⟩

end Grammar

end PatternAutomata
