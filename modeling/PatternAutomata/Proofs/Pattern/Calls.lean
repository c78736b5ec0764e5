import PatternAutomata.Nfa.Fragment
import PatternAutomata.Pattern.Conventional
import PatternAutomata.Proofs.Pattern.Evaluation

namespace PatternAutomata

namespace Construction

variable {σ φ : Type}

def record (item : Postfix) (step : StateM σ φ) : StateM (σ × List Postfix) φ := fun s =>
  ((step s.1).1, (step s.1).2, s.2 ++ [item])

def traced (c : Construction (StateM σ) φ) : Construction (StateM (σ × List Postfix)) φ where
  operand v := record (.operand v) (c.operand v)
  repetition r f := record (.operator (.repetition r)) (c.repetition r f)
  junction j f g := record (.operator (.junction j)) (c.junction j f g)

/-- An expression is built by one call for each item of its postorder. -/
theorem fold_traced (c : Construction (StateM σ) φ) (e : Expression) (s : σ) (calls : List Postfix) :
    c.traced.fold e (s, calls) = ((c.fold e s).1, (c.fold e s).2, calls ++ e.postorder) := by
  induction e generalizing s calls with
  | operand v => rfl
  | repetition r e ih =>
    have hrun : c.traced.fold (.repetition r e) (s, calls) =
        c.traced.repetition r (c.traced.fold e (s, calls)).1 (c.traced.fold e (s, calls)).2 := rfl
    rw [hrun, ih, Expression.postorder, ← List.append_assoc]
    rfl
  | junction j e f ihe ihf =>
    have hrun : c.traced.fold (.junction j e f) (s, calls) =
        c.traced.junction j (c.traced.fold e (s, calls)).1
          (c.traced.fold f (c.traced.fold e (s, calls)).2).1 (c.traced.fold f (c.traced.fold e (s, calls)).2).2 := rfl
    rw [hrun, ihe, ihf, Expression.postorder, ← List.append_assoc, ← List.append_assoc]
    rfl

end Construction

open Construction

theorem Conventional.ofPattern?_of_verdict {pattern : String} {items : List Postfix}
    {verdict : Except PatternError.Cause Expression} (hitems : Postfix.ofPattern? pattern = .ok items)
    (h : Postfix.Verdict pattern items verdict) :
    ofPattern? pattern = (verdict.mapError (⟨pattern, ·⟩)).map fun e => String.ofList (Id.run (construction.fold e)) := by
  have hrun : ofPattern? pattern = Id.run (construction.build pattern items) >>= fun text => pure (String.ofList text) := by
    rw [ofPattern?, hitems]
    rfl
  rw [hrun]
  cases verdict with
  | error cause =>
    obtain ⟨es, hes⟩ := construction.build_of_error h
    rw [hes]
    rfl
  | ok e =>
    rw [construction.build_of_ok h]
    rfl

theorem Nfa.ofPattern?_of_verdict {pattern : String} {items : List Postfix}
    {verdict : Except PatternError.Cause Expression} (hitems : Postfix.ofPattern? pattern = .ok items)
    (h : Postfix.Verdict pattern items verdict) :
    ofPattern? pattern = (verdict.mapError (⟨pattern, ·⟩)).map fun e =>
      (Arena.construction.fold e (.empty 0)).2.toNfa (Arena.construction.fold e (.empty 0)).1 := by
  have hrun : ofPattern? pattern = (Arena.construction.build pattern items (.empty 0)).1.map
      (Arena.construction.build pattern items (.empty 0)).2.toNfa := by
    rw [ofPattern?, hitems]
    rfl
  rw [hrun]
  cases verdict with
  | error cause =>
    obtain ⟨es, hes⟩ := Arena.construction.build_of_error h
    rw [hes]
    rfl
  | ok e =>
    rw [Arena.construction.build_of_ok h]
    rfl

/-- A pattern has conventional syntax or an automaton, or the same is wrong with it both times. -/
theorem Conventional.ofPattern?_or (pattern : String) :
    (∃ text n, ofPattern? pattern = .ok text ∧ Nfa.ofPattern? pattern = .ok n) ∨
      ∃ e, ofPattern? pattern = .error e ∧ Nfa.ofPattern? pattern = .error e := by
  cases hitems : Postfix.ofPattern? pattern with
  | error e =>
    refine .inr ⟨e, ?_, ?_⟩
    · rw [ofPattern?, hitems]
      rfl
    · rw [Nfa.ofPattern?, hitems]
      rfl
  | ok items =>
    obtain ⟨verdict, h⟩ := Postfix.exists_verdict pattern items
    rw [ofPattern?_of_verdict hitems h, Nfa.ofPattern?_of_verdict hitems h]
    cases verdict with
    | error cause => exact .inr ⟨_, rfl, rfl⟩
    | ok e => exact .inl ⟨_, _, rfl, rfl⟩

namespace Construction

/-- Items are judged before it is known what is built from them: the first one that is refused is reported, else that
they do not leave one fragment, and else they are the postorder of one expression, which is built by one call for each
item in order. So conventional syntax and automata exist for the same patterns and are refused for the same reasons. -/
theorem build_verdict (pattern : String) (items : List Postfix) :
    (∃ verdict, (∀ other, Postfix.Verdict pattern items other ↔ other = verdict) ∧
      ∀ {σ φ : Type} (c : Construction (StateM σ) φ) (s : σ),
        match verdict with
        | .error cause => (c.build pattern items s).1 = .error ⟨pattern, cause⟩
        | .ok e => c.build pattern items s = (.ok (c.fold e s).1, (c.fold e s).2) ∧
            c.traced.build pattern items (s, []) = (.ok (c.fold e s).1, (c.fold e s).2, items)) ∧
      ((∃ text n, Conventional.ofPattern? pattern = .ok text ∧ Nfa.ofPattern? pattern = .ok n) ∨
        ∃ e, Conventional.ofPattern? pattern = .error e ∧ Nfa.ofPattern? pattern = .error e) := by
  refine ⟨?_, Conventional.ofPattern?_or pattern⟩
  obtain ⟨verdict, h⟩ := Postfix.exists_verdict pattern items
  refine ⟨verdict, fun other => ⟨fun h' => h'.unique h, fun h' => h' ▸ h⟩, ?_⟩
  intro σ φ c s
  cases verdict with
  | error cause =>
    obtain ⟨es, hes⟩ := c.build_of_error h
    exact congrArg Prod.fst (congrFun hes s)
  | ok e =>
    refine ⟨congrFun (c.build_of_ok h) s, ?_⟩
    have htraced := congrFun (c.traced.build_of_ok h) (s, [])
    obtain _ | _ | _ | ⟨-, rfl⟩ := h
    have hfold := c.fold_traced e s []
    rw [htraced]
    show (Except.ok (c.traced.fold e (s, [])).1, (c.traced.fold e (s, [])).2) = _
    rw [hfold, List.nil_append]

end Construction

end PatternAutomata
