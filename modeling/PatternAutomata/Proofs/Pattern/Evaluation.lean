import PatternAutomata.Proofs.Pattern.Expression

namespace PatternAutomata

namespace Construction

variable {m : Type → Type} {φ : Type}

/-- The construction applied to an expression, left before right. -/
def fold [Monad m] (c : Construction m φ) : Expression → m φ
  | .operand v => c.operand v
  | .repetition r e => do
    let f ← c.fold e
    c.repetition r f
  | .junction j e f => do
    let left ← c.fold e
    let right ← c.fold f
    c.junction j left right

theorem buildOn_operand [Monad m] (c : Construction m φ) (pattern : String) (stack : List φ) {v : Operand}
    (hv : v.isBackward = false) (rest : List Postfix) :
    c.buildOn pattern stack (.operand v :: rest) =
      c.operand v >>= fun f => c.buildOn pattern (f :: stack) rest := by
  cases v with
  | char x => rw [buildOn]
  | range first last =>
    have hle : ¬ last < first := by simpa [Operand.isBackward] using hv
    rw [buildOn, if_neg hle]

theorem buildOn_postorder [Monad m] [LawfulMonad m] (c : Construction m φ) (pattern : String) {e : Expression}
    (he : e.Forward) (stack : List φ) (rest : List Postfix) :
    c.buildOn pattern stack (e.postorder ++ rest) =
      c.fold e >>= fun f => c.buildOn pattern (f :: stack) rest := by
  induction e generalizing stack rest with
  | operand v => exact c.buildOn_operand pattern stack (he v (by simp [Expression.operands])) rest
  | repetition r e ih =>
    rw [Expression.postorder, List.append_assoc, ih he, fold, bind_assoc]
    rfl
  | junction j e f ihe ihf =>
    rw [Expression.postorder, List.append_assoc, List.append_assoc, ihe he.left, fold, bind_assoc]
    congr 1
    funext left
    rw [ihf he.right, bind_assoc]
    rfl

/-- The whole of a postorder builds the fragment of its expression. -/
theorem build_postorder [Monad m] [LawfulMonad m] (c : Construction m φ) (pattern : String) {e : Expression}
    (he : e.Forward) : c.build pattern e.postorder = Except.ok <$> c.fold e := by
  have h := c.buildOn_postorder pattern he [] []
  rw [List.append_nil] at h
  rw [build, h, bind_assoc, map_eq_pure_bind]
  congr 1
  funext f
  rw [buildOn, pure_bind]
  rfl

def syntactic : Construction Id Expression := ⟨.operand, .repetition, .junction⟩

theorem fold_syntactic (e : Expression) : syntactic.fold e = e := by
  induction e with
  | operand v => rfl
  | repetition r e ih => exact congrArg (Expression.repetition r) ih
  | junction j e f ihe ihf => exact congrArg₂ (Expression.junction j) ihe ihf

end Construction

def Operator.gain : Operator → Int
  | repetition _ => 0
  | junction _ => -1

def Operator.arity : Operator → Nat
  | repetition _ => 1
  | junction _ => 2

namespace Postfix

def gain : Postfix → Int
  | operand _ => 1
  | operator o => o.gain

def net : List Postfix → Int
  | [] => 0
  | i :: rest => i.gain + net rest

theorem net_append (xs ys : List Postfix) : net (xs ++ ys) = net xs + net ys := by
  induction xs with
  | nil => simp [net]
  | cons i rest ih =>
    rw [List.cons_append, net, net, ih]
    omega

end Postfix

/-- A postorder leaves one fragment. -/
theorem Expression.net_postorder (e : Expression) : Postfix.net e.postorder = 1 := by
  induction e with
  | operand v => rfl
  | repetition r e ih => rw [postorder, Postfix.net_append, ih]; rfl
  | junction j e f ihe ihf => rw [postorder, Postfix.net_append, Postfix.net_append, ihe, ihf]; rfl

theorem Expression.net_flatMap_postorder (es : List Expression) :
    Postfix.net (es.flatMap postorder) = es.length := by
  induction es with
  | nil => rfl
  | cons e es ih =>
    rw [List.flatMap_cons, Postfix.net_append, net_postorder, ih, List.length_cons]
    omega

namespace Postfix

/-- Why an item is not built where `count` fragments wait: its range runs backwards, or it finds fewer operands than it
takes. -/
def refusal? (pattern : String) (count : Int) : Postfix → Option PatternError.Cause
  | operand (.char _) => none
  | operand (.range first last) =>
    if last < first then some (.backwardRange first last (Construction.rangeIndex first last pattern)) else none
  | operator o => if count < o.arity then some (.missingOperand o) else none

def Sound (pattern : String) (items : List Postfix) : Prop :=
  ∀ before item after, items = before ++ item :: after → item.refusal? pattern (net before) = none

variable {pattern : String} {items : List Postfix} {item : Postfix}

theorem sound_nil : Sound pattern [] := by
  intro before item after h
  simp at h

theorem sound_concat_iff :
    Sound pattern (items ++ [item]) ↔ Sound pattern items ∧ item.refusal? pattern (net items) = none := by
  constructor
  · intro h
    refine ⟨?_, h items item [] rfl⟩
    rintro before i after rfl
    exact h before i (after ++ [item]) (by simp)
  · rintro ⟨hitems, hitem⟩ before i after heq
    rcases List.eq_nil_or_concat after with rfl | ⟨after, last, rfl⟩
    · obtain ⟨rfl, hi⟩ := List.append_inj' heq rfl
      obtain rfl := List.singleton_inj.mp hi
      exact hitem
    · rw [List.concat_eq_append, ← List.cons_append, ← List.append_assoc] at heq
      exact hitems before i after (List.append_inj' heq rfl).1

/-- The items go through, or there is a first one that is refused. -/
theorem sound_or_refused (pattern : String) (items : List Postfix) : Sound pattern items ∨
    ∃ before item after cause, items = before ++ item :: after ∧ Sound pattern before ∧
      item.refusal? pattern (net before) = some cause := by
  induction items using List.reverseRecOn with
  | nil => exact .inl sound_nil
  | append_singleton items last ih =>
    rcases ih with hsound | ⟨before, item, after, cause, rfl, hbefore, hitem⟩
    · cases hlast : last.refusal? pattern (net items) with
      | none => exact .inl (sound_concat_iff.mpr ⟨hsound, hlast⟩)
      | some cause => exact .inr ⟨items, last, [], cause, rfl, hsound, hlast⟩
    · exact .inr ⟨before, item, after ++ [last], cause, by simp, hbefore, hitem⟩

theorem refusal?_operand_eq_none_iff {count : Int} {v : Operand} :
    (operand v).refusal? pattern count = none ↔ v.isBackward = false := by
  cases v <;> simp [refusal?, Operand.isBackward]

theorem refusal?_operator_eq_none_iff {count : Int} {o : Operator} :
    (operator o).refusal? pattern count = none ↔ (o.arity : Int) ≤ count := by
  simp [refusal?]

theorem Sound.isBackward_eq_false (h : Sound pattern items) {v : Operand} (hv : .operand v ∈ items) :
    v.isBackward = false := by
  obtain ⟨before, after, rfl⟩ := List.append_of_mem hv
  exact refusal?_operand_eq_none_iff.mp (h before (.operand v) after rfl)

theorem Sound.forward {e : Expression} (h : Sound pattern e.postorder) : e.Forward :=
  fun _ hv => h.isBackward_eq_false (Expression.operand_mem_postorder.mpr hv)

/-- Items that go through are postorders one after the other, one for each fragment that they leave. -/
theorem Sound.exists_forest (h : Sound pattern items) :
    ∃ es : List Expression, (∀ e ∈ es, e.Forward) ∧ es.flatMap Expression.postorder = items ∧ es.length = net items := by
  -- It is enough to find the expressions: how many there are follows from what is left.
  suffices hforest : ∃ es : List Expression, es.flatMap Expression.postorder = items by
    obtain ⟨es, rfl⟩ := hforest
    refine ⟨es, ?_, rfl, (Expression.net_flatMap_postorder es).symm⟩
    intro e he v hv
    exact h.isBackward_eq_false (List.mem_flatMap.mpr ⟨e, he, Expression.operand_mem_postorder.mpr hv⟩)
  induction items using List.reverseRecOn with
  | nil => exact ⟨[], rfl⟩
  | append_singleton items item ih =>
    obtain ⟨hitems, hitem⟩ := sound_concat_iff.mp h
    obtain ⟨es, rfl⟩ := ih hitems
    rw [Expression.net_flatMap_postorder] at hitem
    cases item with
    | operand v => exact ⟨es ++ [.operand v], by simp [Expression.postorder]⟩
    | operator o =>
      have harity := refusal?_operator_eq_none_iff.mp hitem
      cases o with
      | repetition r =>
        rcases List.eq_nil_or_concat es with rfl | ⟨es, e, rfl⟩
        · simp [Operator.arity] at harity
        · exact ⟨es ++ [.repetition r e], by simp [Expression.postorder]⟩
      | junction j =>
        rcases List.eq_nil_or_concat es with rfl | ⟨es, f, rfl⟩
        · simp [Operator.arity] at harity
        · rcases List.eq_nil_or_concat es with rfl | ⟨es, e, rfl⟩
          · simp [Operator.arity] at harity
          · exact ⟨es ++ [.junction j e f], by simp [Expression.postorder]⟩

end Postfix

/-- What building comes to, said of the items alone. -/
inductive Postfix.Verdict (pattern : String) (items : List Postfix) : Except PatternError.Cause Expression → Prop
  | refused {before after : List Postfix} {item : Postfix} {cause : PatternError.Cause}
    (h : items = before ++ item :: after) (hbefore : Sound pattern before)
    (hitem : item.refusal? pattern (net before) = some cause) : Verdict pattern items (.error cause)
  | empty (h : Sound pattern items) (hnet : net items = 0) : Verdict pattern items (.error .emptyPattern)
  | dangling {count : Nat} (h : Sound pattern items) (hnet : net items = count) (hcount : 2 ≤ count) :
    Verdict pattern items (.error (.danglingOperands count))
  | whole {e : Expression} (h : Sound pattern items) (he : e.postorder = items) : Verdict pattern items (.ok e)

namespace Construction

open Postfix

/-- What follows a traversal may rely on the number of its results. -/
theorem mapM_bind_congr [Monad m] [LawfulMonad m] {α β γ : Type} {f : α → m β} {xs : List α} {k k' : List β → m γ}
    (h : ∀ ys, ys.length = xs.length → k ys = k' ys) : xs.mapM f >>= k = xs.mapM f >>= k' := by
  induction xs generalizing k k' with
  | nil => simp [h [] rfl]
  | cons x xs ih =>
    simp only [List.mapM_cons, bind_assoc, pure_bind]
    congr 1
    funext y
    exact ih fun ys hys => h (y :: ys) (by rw [List.length_cons, hys, List.length_cons])

theorem buildOn_forest [Monad m] [LawfulMonad m] (c : Construction m φ) (pattern : String) {es : List Expression}
    (hes : ∀ e ∈ es, e.Forward) (stack : List φ) (rest : List Postfix) :
    c.buildOn pattern stack (es.flatMap Expression.postorder ++ rest) =
      es.mapM c.fold >>= fun fs => c.buildOn pattern (fs.reverse ++ stack) rest := by
  induction es generalizing stack with
  | nil => simp
  | cons e es ih =>
    obtain ⟨he, hes'⟩ := List.forall_mem_cons.mp hes
    rw [List.flatMap_cons, List.append_assoc, c.buildOn_postorder pattern he]
    simp only [ih hes', List.mapM_cons, bind_assoc, pure_bind, List.reverse_cons, List.append_assoc,
      List.singleton_append]

theorem buildOn_of_refusal? [Monad m] (c : Construction m φ) {pattern : String} {stack : List φ} {item : Postfix}
    {cause : PatternError.Cause} (h : item.refusal? pattern stack.length = some cause) (rest : List Postfix) :
    c.buildOn pattern stack (item :: rest) = pure (.error cause) := by
  match item, stack with
  | .operand (.char _), _ => cases h
  | .operand (.range first last), _ =>
    rw [refusal?] at h
    split_ifs at h with hback
    rw [buildOn, if_pos hback, Option.some.inj h]
  | .operator (.repetition r), [] | .operator (.junction j), [] | .operator (.junction j), [_] =>
    obtain rfl := Option.some.inj h
    rfl
  | .operator (.repetition r), f :: stack =>
    have hfits : ((Operator.repetition r).arity : Int) ≤ (f :: stack).length := by
      rw [Operator.arity, List.length_cons]
      omega
    rw [refusal?_operator_eq_none_iff.mpr hfits] at h
    cases h
  | .operator (.junction j), f :: g :: stack =>
    have hfits : ((Operator.junction j).arity : Int) ≤ (f :: g :: stack).length := by
      rw [Operator.arity, List.length_cons, List.length_cons]
      omega
    rw [refusal?_operator_eq_none_iff.mpr hfits] at h
    cases h

variable {pattern : String} {items : List Postfix}

theorem result_of_two_le {stack : List φ} (h : 2 ≤ stack.length) :
    result stack = .error (.danglingOperands stack.length) := by
  match stack with
  | _ :: _ :: _ => rfl

theorem build_of_refused [Monad m] [LawfulMonad m] (c : Construction m φ) {before after : List Postfix} {item : Postfix}
    {cause : PatternError.Cause} (hbefore : Sound pattern before) (hitem : item.refusal? pattern (net before) = some cause) :
    ∃ es : List Expression, c.build pattern (before ++ item :: after) =
      es.mapM c.fold >>= fun _ => pure (.error ⟨pattern, cause⟩) := by
  obtain ⟨es, hes, rfl, hlength⟩ := hbefore.exists_forest
  refine ⟨es, ?_⟩
  rw [build, c.buildOn_forest pattern hes, bind_assoc]
  apply mapM_bind_congr
  intro fs hfs
  have hcount : (item.refusal? pattern (fs.reverse ++ []).length) = some cause := by
    rw [List.append_nil, List.length_reverse, hfs, hlength, hitem]
  rw [c.buildOn_of_refusal? hcount, pure_bind]
  rfl

theorem build_of_sound [Monad m] [LawfulMonad m] (c : Construction m φ) (h : Sound pattern items) {cause : PatternError.Cause}
    (hresult : ∀ fs : List φ, (fs.length : Int) = net items → result fs = .error cause) :
    ∃ es : List Expression, c.build pattern items = es.mapM c.fold >>= fun _ => pure (.error ⟨pattern, cause⟩) := by
  obtain ⟨es, hes, rfl, hlength⟩ := h.exists_forest
  refine ⟨es, ?_⟩
  have hrun := c.buildOn_forest pattern hes [] []
  rw [List.append_nil] at hrun
  rw [build, hrun, bind_assoc]
  apply mapM_bind_congr
  intro fs hfs
  rw [List.append_nil, buildOn, pure_bind, hresult fs.reverse (by rw [List.length_reverse, hfs, hlength])]
  rfl

/-- An error of the verdict is what every construction ends with, after some calls. -/
theorem build_of_error [Monad m] [LawfulMonad m] (c : Construction m φ) {cause : PatternError.Cause}
    (h : Verdict pattern items (.error cause)) :
    ∃ es : List Expression, c.build pattern items = es.mapM c.fold >>= fun _ => pure (.error ⟨pattern, cause⟩) := by
  cases h with
  | refused h hbefore hitem =>
    rw [h]
    exact c.build_of_refused hbefore hitem
  | empty h hnet =>
    apply c.build_of_sound h
    intro fs hfs
    obtain rfl : fs = [] := List.length_eq_zero_iff.mp (by omega)
    rfl
  | dangling h hnet hcount =>
    apply c.build_of_sound h
    intro fs hfs
    have hlength : fs.length = _ := Int.ofNat.inj (hfs.trans hnet)
    rw [result_of_two_le (hlength ▸ hcount), hlength]

/-- An expression is what every construction is applied to. -/
theorem build_of_ok [Monad m] [LawfulMonad m] (c : Construction m φ) {e : Expression} (h : Verdict pattern items (.ok e)) :
    c.build pattern items = Except.ok <$> c.fold e := by
  obtain _ | _ | _ | ⟨hsound, rfl⟩ := h
  exact c.build_postorder pattern hsound.forward

end Construction

theorem Postfix.exists_verdict (pattern : String) (items : List Postfix) : ∃ verdict, Verdict pattern items verdict := by
  rcases sound_or_refused pattern items with hsound | ⟨before, item, after, cause, h, hbefore, hitem⟩
  · obtain ⟨es, -, hes, hlength⟩ := hsound.exists_forest
    match es with
    | [] => exact ⟨_, .empty hsound hlength.symm⟩
    | [e] => exact ⟨_, .whole hsound (by simpa using hes)⟩
    | e :: f :: es => exact ⟨_, .dangling hsound hlength.symm (by simp)⟩
  · exact ⟨_, .refused h hbefore hitem⟩

/-- Building the expression itself gives the verdict, so there is one only. -/
theorem Postfix.Verdict.unique {pattern : String} {items : List Postfix} {v w : Except PatternError.Cause Expression}
    (hv : Verdict pattern items v) (hw : Verdict pattern items w) : v = w := by
  have hbuild {v : Except PatternError.Cause Expression} (hv : Verdict pattern items v) :
      Id.run (Construction.syntactic.build pattern items) = v.mapError (⟨pattern, ·⟩) := by
    cases v with
    | error cause =>
      obtain ⟨es, hes⟩ := Construction.syntactic.build_of_error hv
      rw [hes]
      rfl
    | ok e =>
      rw [Construction.syntactic.build_of_ok hv]
      exact congrArg Except.ok (Construction.fold_syntactic e)
  have heq := (hbuild hv).symm.trans (hbuild hw)
  cases v <;> cases w <;> simp_all [Except.mapError]

/-- What a construction leaves is built from a postorder. -/
theorem Construction.exists_postorder_of_build {σ φ : Type} (c : Construction (StateM σ) φ) (pattern : String)
    {items : List Postfix} {a : σ} {f : φ} (h : (c.build pattern items a).1 = .ok f) :
    ∃ e : Expression, e.Forward ∧ items = e.postorder := by
  obtain ⟨verdict, hverdict⟩ := Postfix.exists_verdict pattern items
  cases verdict with
  | error cause =>
    obtain ⟨es, hes⟩ := c.build_of_error hverdict
    rw [hes] at h
    cases h
  | ok e =>
    obtain _ | _ | _ | ⟨hsound, rfl⟩ := hverdict
    exact ⟨e, hsound.forward, rfl⟩

/-- A postfix sequence is the postorder of one expression at most. -/
theorem Expression.eq_of_postorder_eq {e f : Expression} (he : e.Forward) (h : e.postorder = f.postorder) : e = f := by
  have hbuild := Construction.syntactic.build_postorder "" he
  rw [h, Construction.syntactic.build_postorder "" (he.of_postorder_eq h), Construction.fold_syntactic,
    Construction.fold_syntactic] at hbuild
  exact (Except.ok.inj hbuild).symm

end PatternAutomata
