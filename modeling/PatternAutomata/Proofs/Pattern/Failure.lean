import PatternAutomata.Proofs.Pattern.Delimiters

namespace PatternAutomata

namespace Token

theorem sublist_expandClasses (inClass afterOperand : Bool) (tokens : List Token) :
    tokens.Sublist (expandClasses inClass afterOperand tokens) := by
  induction tokens generalizing inClass afterOperand with
  | nil => exact .slnil
  | cons t rest ih =>
    rw [expandClasses]
    split
    · exact (ih ..).cons_cons t
    · exact (ih ..).cons_cons t
    · split
      · exact ((ih ..).cons_cons t).cons _
      · exact (ih ..).cons_cons t
    · exact (ih ..).cons_cons t

theorem sublist_joinFrom (b : Bool) (tokens : List Token) : tokens.Sublist (joinFrom b tokens) := by
  induction tokens generalizing b with
  | nil => exact .slnil
  | cons t rest ih => exact ((ih _).cons_cons t).trans (List.sublist_append_right _ _)

/-- Tokens are added to, but none is lost or moved. -/
theorem sublist_explicit (tokens : List Token) : tokens.Sublist (explicit tokens) := by
  rw [explicit, insertConcatenation_eq]
  exact (sublist_expandClasses _ _ _).trans (sublist_joinFrom _ _)

theorem mem_expandClasses {inClass afterOperand : Bool} {tokens : List Token} {t : Token}
    (ht : t ∈ expandClasses inClass afterOperand tokens) : t ∈ tokens ∨ t.kind = .operator (.junction .alternate) := by
  induction tokens generalizing inClass afterOperand with
  | nil => exact .inl ht
  | cons u rest ih =>
    have hcons {inClass' afterOperand' : Bool} (h : t ∈ u :: expandClasses inClass' afterOperand' rest) :
        t ∈ u :: rest ∨ t.kind = .operator (.junction .alternate) := by
      rcases List.mem_cons.mp h with rfl | h
      · exact .inl List.mem_cons_self
      · exact (ih h).imp_left (List.mem_cons_of_mem u)
    rw [expandClasses] at ht
    split at ht
    · exact hcons ht
    · exact hcons ht
    · split at ht
      · rcases List.mem_cons.mp ht with rfl | ht
        · exact .inr rfl
        · exact hcons ht
      · exact hcons ht
    · exact hcons ht

theorem mem_joinFrom {b : Bool} {tokens : List Token} {t : Token} (ht : t ∈ joinFrom b tokens) :
    t ∈ tokens ∨ t.kind = .operator (.junction .concat) := by
  induction tokens generalizing b with
  | nil => cases ht
  | cons u rest ih =>
    rw [joinFrom, seam] at ht
    rcases List.mem_append.mp ht with ht | ht
    · split at ht
      · rw [List.mem_singleton.mp ht]
        exact .inr rfl
      · cases ht
    · rcases List.mem_cons.mp ht with rfl | ht
      · exact .inl List.mem_cons_self
      · exact (ih ht).imp_left (List.mem_cons_of_mem u)

/-- Nothing but junctions is added. -/
theorem mem_explicit {tokens : List Token} {t : Token} (ht : t ∈ explicit tokens) :
    t ∈ tokens ∨ ∃ j, t.kind = .operator (.junction j) := by
  rw [explicit, insertConcatenation_eq] at ht
  rcases mem_joinFrom ht with ht | hkind
  · exact (mem_expandClasses ht).imp_right fun hkind => ⟨_, hkind⟩
  · exact .inr ⟨_, hkind⟩

theorem AllUsable.explicit {tokens : List Token} (h : AllUsable tokens) : AllUsable (explicit tokens) := by
  intro t ht v hv
  rcases mem_explicit ht with ht | ⟨j, hj⟩
  · exact h t ht v hv
  · rw [hj] at hv
    cases hv

/-- Delimiters nested among themselves have an empty group somewhere. -/
theorem Nested.eq_nil_or_hollow {tokens : List Token} (h : Nested tokens)
    (hdelimiter : ∀ t ∈ tokens, t.kind.isDelimiter = true) : tokens = [] ∨ Hollow tokens := by
  induction h with
  | nil => exact .inl rfl
  | @plain t h =>
    rw [hdelimiter t (List.mem_singleton_self t)] at h
    cases h
  | @group d o c ts ho hc _ ih =>
    have hinner : ∀ t ∈ ts, t.kind.isDelimiter = true := fun t ht => hdelimiter t (by simp [ht])
    right
    rcases ih hinner with rfl | hhollow
    · exact ⟨[], d, o, c, [], rfl, ho, hc⟩
    · exact hhollow.around [o] [c]
  | @append ts us _ _ ih ih' =>
    have hleft : ∀ t ∈ ts, t.kind.isDelimiter = true := fun t ht => hdelimiter t (by simp [ht])
    have hright : ∀ t ∈ us, t.kind.isDelimiter = true := fun t ht => hdelimiter t (by simp [ht])
    rcases ih hleft with rfl | hhollow
    · exact ih' hright
    · exact .inr (hhollow.around [] us)

theorem split_ne_nil {i : Nat} {cs : List Char} (h : cs ≠ []) : split i cs ≠ [] := by
  intro hnil
  have htext := flatMap_text_split i cs
  rw [hnil] at htext
  exact h htext.symm

end Token

namespace Postfix

variable {pattern : String} {items : List Postfix}

/-- The items of a pattern are those of its tokens, with every operator explicit. -/
theorem perm_of_ofPattern? (h : ofPattern? pattern = .ok items) :
    items.Perm (Token.items (Token.explicit (Token.split 0 pattern.toList))) := by
  obtain ⟨-, horder⟩ := ofPattern?_eq_ok_iff.mp h
  exact order_perm horder

theorem isBackward_eq_false_of_ofPattern? (h : ofPattern? pattern = .ok items) {v : Operand}
    (hv : .operand v ∈ items) : v.isBackward = false := by
  obtain ⟨husable, -⟩ := ofPattern?_eq_ok_iff.mp h
  rw [(perm_of_ofPattern? h).mem_iff, Token.items, List.mem_filterMap] at hv
  obtain ⟨t, ht, hitem⟩ := hv
  have hkind : t.kind = .operand v := by
    cases hk : t.kind <;> simp_all [Token.Kind.item?]
  exact (husable.explicit t ht v hkind).1

/-- No pattern leaves more than one fragment. -/
theorem net_le_one_of_ofPattern? (h : ofPattern? pattern = .ok items) : net items ≤ 1 := by
  rw [net_perm (perm_of_ofPattern? h), Token.net_items, Token.explicit, Token.insertConcatenation_eq]
  have hle := (Token.net_joinFrom_le false (Token.expandClasses false false (Token.split 0 pattern.toList))).1
  simpa using hle

theorem ne_nil_of_ofPattern? (h : ofPattern? pattern = .ok items) (hpattern : pattern ≠ "") : items ≠ [] := by
  rintro rfl
  obtain ⟨husable, -⟩ := ofPattern?_eq_ok_iff.mp h
  have htokens := Token.ofPattern?_eq_ok_iff.mpr ⟨rfl, husable⟩
  obtain ⟨hnested, hhollow⟩ := (exists_ofPattern?_iff htokens).mp ⟨_, h⟩
  have hnone := (perm_of_ofPattern? h).nil_eq
  -- Without items all tokens are delimiters, so some group is empty.
  have hdelimiter : ∀ t ∈ Token.split 0 pattern.toList, t.kind.isDelimiter = true := by
    intro t ht
    have hitem := List.filterMap_eq_nil_iff.mp hnone.symm t ((Token.sublist_explicit _).mem ht)
    cases hk : t.kind <;> simp_all [Token.Kind.item?, Token.Kind.isDelimiter]
  rcases hnested.eq_nil_or_hollow hdelimiter with hnil | hhollow'
  · exact Token.split_ne_nil (by simpa using hpattern) hnil
  · exact hhollow hhollow'

/-- The postfix form of a pattern that is not empty leaves one fragment, unless an operator finds no operand. -/
theorem Verdict.of_ofPattern? {verdict : Except PatternError.Cause Expression} (hverdict : Verdict pattern items verdict)
    (h : ofPattern? pattern = .ok items) (hpattern : pattern ≠ "") :
    (∃ e, verdict = .ok e) ∨ ∃ o, verdict = .error (.missingOperand o) := by
  cases hverdict with
  | @refused before after item cause hitems _ hitem =>
    cases item with
    | operand v =>
      have hforward := isBackward_eq_false_of_ofPattern? h (show .operand v ∈ items by simp [hitems])
      rw [refusal?_operand_eq_none_iff.mpr hforward] at hitem
      cases hitem
    | operator o =>
      rw [refusal?] at hitem
      split_ifs at hitem
      obtain rfl := Option.some.inj hitem
      exact .inr ⟨o, rfl⟩
  | empty hsound hnet =>
    obtain ⟨es, -, rfl, hlength⟩ := hsound.exists_forest
    obtain rfl : es = [] := List.length_eq_zero_iff.mp (by omega)
    exact absurd rfl (ne_nil_of_ofPattern? h hpattern)
  | dangling _ hnet hcount =>
    have hle := net_le_one_of_ofPattern? h
    omega
  | whole _ _ => exact .inl ⟨_, rfl⟩

end Postfix

theorem Construction.build_outcome {σ φ : Type} (c : Construction (StateM σ) φ) {pattern : String} {items : List Postfix}
    (h : Postfix.ofPattern? pattern = .ok items) (hpattern : pattern ≠ "") (s : σ) :
    (∃ f, (c.build pattern items s).1 = .ok f) ∨
      ∃ o, (c.build pattern items s).1 = .error ⟨pattern, .missingOperand o⟩ := by
  obtain ⟨verdict, hverdict⟩ := Postfix.exists_verdict pattern items
  rcases hverdict.of_ofPattern? h hpattern with ⟨e, rfl⟩ | ⟨o, rfl⟩
  · exact .inl ⟨_, by rw [c.build_of_ok hverdict]; rfl⟩
  · obtain ⟨es, hes⟩ := c.build_of_error hverdict
    exact .inr ⟨o, by rw [hes]; rfl⟩

inductive PatternError.Stage
  | reading
  | ordering
  | building

def PatternError.Cause.stage : Cause → Stage
  | unexpectedInput _ | backwardRange .. | reservedSymbol .. => .reading
  | unmatchedClose .. | mismatchedDelimiter .. | emptyGroup .. | unclosedGroup .. => .ordering
  | missingOperand _ | danglingOperands _ | emptyPattern => .building

theorem Token.stage_of_fault? {t : Token} {cause : PatternError.Cause} (h : t.fault? = some cause) :
    cause.stage = .reading := by
  obtain ⟨v, -, hrejects⟩ := fault?_eq_some_iff.mp h
  cases hrejects <;> rfl

/-- Reading fails at nothing but an unusable operand. -/
theorem Token.exists_fault_of_ofPattern? {pattern : String} {cause : PatternError.Cause}
    (h : ofPattern? pattern = .error cause) : ∃ t ∈ split 0 pattern.toList, t.fault? = some cause :=
  List.exists_of_findSome?_eq_some (ofPattern?_eq_error_iff.mp h)

theorem Token.stage_of_ofPattern? {pattern : String} {cause : PatternError.Cause}
    (h : ofPattern? pattern = .error cause) : cause.stage = .reading := by
  obtain ⟨t, -, hfault⟩ := exists_fault_of_ofPattern? h
  exact stage_of_fault? hfault

theorem Token.stage_of_offence? {opened : List (Delimiter × Nat)} {previous : Option Token} {t : Token}
    {cause : PatternError.Cause} (h : offence? opened previous t = some cause) : cause.stage = .ordering := by
  unfold offence? at h
  split at h
  · obtain rfl := Option.some.inj h
    rfl
  · split_ifs at h <;> obtain rfl := Option.some.inj h <;> rfl
  · cases h

theorem Token.Flaw.stage {tokens : List Token} {cause : PatternError.Cause} (h : Flaw tokens cause) :
    cause.stage = .ordering := by
  cases h with
  | offence _ _ ht => exact stage_of_offence? ht
  | unclosed _ _ => rfl

namespace Nfa

variable {pattern : String}

inductive Fails (pattern : String) : PatternError.Cause → Prop
  | unreadable {cause : PatternError.Cause} (h : Token.ofPattern? pattern = .error cause) : Fails pattern cause
  | unordered {tokens : List Token} {cause : PatternError.Cause} (h : Token.ofPattern? pattern = .ok tokens)
      (hflaw : Token.Flaw tokens cause) : Fails pattern cause
  | missing {items : List Postfix} (h : Postfix.ofPattern? pattern = .ok items) (o : Operator) :
      Fails pattern (.missingOperand o)
  | empty (h : pattern = "") : Fails pattern .emptyPattern

theorem ofPattern?_of_unreadable {cause : PatternError.Cause} (h : Token.ofPattern? pattern = .error cause) :
    ofPattern? pattern = .error ⟨pattern, cause⟩ := by
  rw [ofPattern?, Postfix.ofPattern?, h]
  rfl

theorem fails_of_ofPattern? {e : PatternError} (h : ofPattern? pattern = .error e) :
    e.pattern = pattern ∧ Fails pattern e.cause := by
  cases htokens : Token.ofPattern? pattern with
  | error cause =>
    rw [ofPattern?_of_unreadable htokens] at h
    obtain rfl := Except.error.inj h
    exact ⟨rfl, .unreadable htokens⟩
  | ok tokens =>
    cases hitems : Postfix.ofPattern? pattern with
    | error e' =>
      rw [ofPattern?, hitems] at h
      obtain rfl := Except.error.inj h
      obtain ⟨hpattern, hflaw⟩ := (Postfix.ofPattern?_eq_error_iff htokens).mp hitems
      exact ⟨hpattern, .unordered htokens hflaw⟩
    | ok items =>
      by_cases hempty : pattern = ""
      · subst hempty
        obtain rfl := Except.error.inj h
        exact ⟨rfl, .empty rfl⟩
      · have hrun : ofPattern? pattern =
            (Arena.construction.build pattern items (.empty 0)).1.map
              (Arena.construction.build pattern items (.empty 0)).2.toNfa := by
          rw [ofPattern?, hitems]
          rfl
        rw [hrun] at h
        rcases Arena.construction.build_outcome hitems hempty (.empty 0) with ⟨f, hf⟩ | ⟨o, ho⟩
        · rw [hf] at h
          cases h
        · rw [ho] at h
          obtain rfl := Except.error.inj h
          exact ⟨rfl, .missing hitems o⟩

/-- Building fails at a missing operand, or because there is nothing to build. -/
theorem Fails.of_building {cause : PatternError.Cause} (h : Fails pattern cause) (hstage : cause.stage = .building) :
    (∃ o, cause = .missingOperand o) ∨ cause = .emptyPattern ∧ pattern = "" := by
  cases h with
  | unreadable h =>
    rw [Token.stage_of_ofPattern? h] at hstage
    cases hstage
  | unordered _ hflaw =>
    rw [hflaw.stage] at hstage
    cases hstage
  | missing _ o => exact .inl ⟨o, rfl⟩
  | empty hpattern => exact .inr ⟨rfl, hpattern⟩

/-- An unusable operand is reported by reading, whatever else is wrong. -/
theorem ofPattern?_eq_error_iff_of_reading {cause : PatternError.Cause} (hstage : cause.stage = .reading) :
    ofPattern? pattern = .error ⟨pattern, cause⟩ ↔ Token.ofPattern? pattern = .error cause := by
  refine ⟨?_, ofPattern?_of_unreadable⟩
  intro h
  obtain ⟨-, hfails⟩ := fails_of_ofPattern? h
  cases hfails with
  | unreadable h => exact h
  | unordered _ hflaw =>
    rw [hflaw.stage] at hstage
    cases hstage
  | missing _ _ | empty _ => cases hstage

theorem ofPattern?_eq_emptyPattern_iff : ofPattern? pattern = .error ⟨pattern, .emptyPattern⟩ ↔ pattern = "" := by
  constructor
  · intro h
    rcases (fails_of_ofPattern? h).2.of_building rfl with ⟨o, ho⟩ | ⟨-, hpattern⟩
    · cases ho
    · exact hpattern
  · rintro rfl
    rfl

theorem cause_ne_danglingOperands {e : PatternError} (h : ofPattern? pattern = .error e) (count : Nat) :
    e.cause ≠ .danglingOperands count := by
  intro hcause
  obtain ⟨-, hfails⟩ := fails_of_ofPattern? h
  rw [hcause] at hfails
  rcases hfails.of_building rfl with ⟨o, ho⟩ | ⟨hempty, -⟩
  · cases ho
  · cases hempty

/-- Reading stops at no place of a text for want of a token. -/
theorem cause_ne_unexpectedInput {e : PatternError} (h : ofPattern? pattern = .error e) (i : Nat) :
    e.cause ≠ .unexpectedInput i := by
  intro hcause
  have hpattern := (fails_of_ofPattern? h).1
  have herror : ofPattern? pattern = .error ⟨pattern, .unexpectedInput i⟩ := by
    rw [h, ← hpattern, ← hcause]
  have hread : Token.ofPattern? pattern = .error (.unexpectedInput i) :=
    (ofPattern?_eq_error_iff_of_reading rfl).mp herror
  -- Reading fails at an operand only, and what is reported of an operand is something else.
  obtain ⟨t, -, hfault⟩ := Token.exists_fault_of_ofPattern? hread
  obtain ⟨v, -, hrejects⟩ := Token.fault?_eq_some_iff.mp hfault
  cases hrejects

/-- How compiling a pattern fails. Its text is read to the end; an operand that runs backwards or contains ε is reported
by reading, and by nothing that comes after; only the empty pattern is reported as empty; reading always finds a token,
and fragments are never left over. From the postfix form of any other pattern every construction builds a fragment,
unless an operator finds no operand. -/
structure Failures (pattern : String) : Prop where
  first : ∀ c rest, c :: rest <:+ pattern.toList →
    ∃ kind, Token.first? (c :: rest) = some (kind, kind.text.length) ∧ kind.text <+: c :: rest
  text : (Token.split 0 pattern.toList).flatMap (·.kind.text) = pattern.toList
  unusable : ∀ cause, Token.ofPattern? pattern = .error cause → ∃ t ∈ Token.split 0 pattern.toList, t.fault? = some cause
  backwardRange : ∀ first last i, ofPattern? pattern = .error ⟨pattern, .backwardRange first last i⟩ ↔
    Token.ofPattern? pattern = .error (.backwardRange first last i)
  reservedSymbol : ∀ symbol i, ofPattern? pattern = .error ⟨pattern, .reservedSymbol symbol i⟩ ↔
    Token.ofPattern? pattern = .error (.reservedSymbol symbol i)
  emptyPattern : ofPattern? pattern = .error ⟨pattern, .emptyPattern⟩ ↔ pattern = ""
  ofPattern : ∀ e, ofPattern? pattern = .error e → e.pattern = pattern
  ne_danglingOperands : ∀ e, ofPattern? pattern = .error e → ∀ count, e.cause ≠ .danglingOperands count
  ne_unexpectedInput : ∀ e, ofPattern? pattern = .error e → ∀ i, e.cause ≠ .unexpectedInput i
  build : ∀ items, Postfix.ofPattern? pattern = .ok items → pattern ≠ "" →
    ∀ {σ φ : Type} (c : Construction (StateM σ) φ) (s : σ), (∃ f, (c.build pattern items s).1 = .ok f) ∨
      ∃ o, (c.build pattern items s).1 = .error ⟨pattern, .missingOperand o⟩

theorem ofPattern?_failures (pattern : String) : Failures pattern where
  first c rest _ := Token.exists_first? c rest
  text := Token.flatMap_text_split 0 _
  unusable _ := Token.exists_fault_of_ofPattern?
  backwardRange _ _ _ := ofPattern?_eq_error_iff_of_reading rfl
  reservedSymbol _ _ := ofPattern?_eq_error_iff_of_reading rfl
  emptyPattern := ofPattern?_eq_emptyPattern_iff
  ofPattern _ he := (fails_of_ofPattern? he).1
  ne_danglingOperands _ := cause_ne_danglingOperands
  ne_unexpectedInput _ := cause_ne_unexpectedInput
  build _ hitems hpattern _ _ c s := c.build_outcome hitems hpattern s

theorem ofPattern?_failures_of_doubled_operator : ∃ items, Postfix.ofPattern? "a||b" = .ok items ∧ "a||b" ≠ "" ∧
    ((∃ f, (Arena.construction.build "a||b" items (.empty 0)).1 = .ok f) ∨
      ∃ o, (Arena.construction.build "a||b" items (.empty 0)).1 = .error ⟨"a||b", .missingOperand o⟩) := by
  have hpattern : "a||b" ≠ "" := by decide
  exact ⟨_, rfl, hpattern, (ofPattern?_failures "a||b").build _ rfl hpattern Arena.construction (.empty 0)⟩

end Nfa

end PatternAutomata
