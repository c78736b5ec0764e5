import PatternAutomata.Pattern.Postfix
import PatternAutomata.Proofs.Pattern.Grammar
import PatternAutomata.Proofs.Pattern.Tokens

namespace PatternAutomata

namespace Postfix

open Token (joinFrom endsAfter)

/-- After some tokens, ordering goes on from another state, with `out` in front of what it gives. -/
def Reads (previous : Option Token.Kind) (stack : List Pending) (tokens : List Token) (out : List Postfix)
    (previous' : Option Token.Kind) (stack' : List Pending) : Prop :=
  ∀ rest, order previous stack (tokens ++ rest) = (order previous' stack' rest).map (out ++ ·)

namespace Reads

variable {previous previous' previous'' : Option Token.Kind} {stack stack' stack'' : List Pending}

theorem trans {xs ys : List Token} {out out' : List Postfix} (h : Reads previous stack xs out previous' stack')
    (h' : Reads previous' stack' ys out' previous'' stack'') :
    Reads previous stack (xs ++ ys) (out ++ out') previous'' stack'' := by
  intro rest
  rw [List.append_assoc, h, h']
  cases order previous'' stack'' rest with
  | error e => rfl
  | ok final => simp [Except.map]

theorem operand {t : Token} {v : Operand} (h : t.kind = .operand v) :
    Reads previous stack [t] [.operand v] (some t.kind) stack := by
  intro rest
  simp only [List.singleton_append, order, h]
  rfl

theorem opening {t : Token} {d : Delimiter} (h : t.kind = .opening d) :
    Reads previous stack [t] [] (some t.kind) (.opening d t.position :: stack) := by
  intro rest
  simp only [List.singleton_append, order, h, List.nil_append]
  cases order (some (.opening d)) (.opening d t.position :: stack) rest <;> rfl

theorem closing {t : Token} {d : Delimiter} {out : List Postfix} (h : t.kind = .closing d)
    (hclose : close d t.position previous stack = .ok (out, stack')) :
    Reads previous stack [t] out (some t.kind) stack' := by
  intro rest
  simp only [List.singleton_append, order, h, hclose]
  rfl

theorem operator {t : Token} {o : Operator} {out : List Postfix} (h : t.kind = .operator o)
    (hrelease : release o stack = (out, stack')) :
    Reads previous stack [t] out (some t.kind) (.operator o :: stack') := by
  intro rest
  simp only [List.singleton_append, order, h, hrelease]
  rfl

end Reads

/-- The operators at the top of a stack, all weaker than `n`, wait for whatever has strength `n`. -/
def Below (n : Nat) (stack : List Pending) : Prop :=
  ∀ o rest, stack = .operator o :: rest → o.strength < n

theorem below_opening (n : Nat) (d : Delimiter) (position : Nat) (stack : List Pending) :
    Below n (.opening d position :: stack) := by
  intro o rest h
  cases h

theorem below_nil (n : Nat) : Below n [] := by
  intro o rest h
  cases h

theorem below_operator {n : Nat} {o : Operator} (h : o.strength < n) (stack : List Pending) :
    Below n (.operator o :: stack) := by
  intro o' rest he
  obtain rfl : o = o' := by simpa using congrArg List.head? he
  exact h

theorem Below.mono {m n : Nat} {stack : List Pending} (h : Below m stack) (hmn : m ≤ n) : Below n stack :=
  fun o rest he => (h o rest he).trans_le hmn

/-- An operator is held up at the first that is weaker. -/
theorem release_of_below {o : Operator} {stack : List Pending} (h : Below o.strength stack) :
    release o stack = ([], stack) := by
  cases stack with
  | nil => rfl
  | cons p rest =>
    cases p with
    | opening d position => rfl
    | operator p =>
      have hp : ¬ o.strength ≤ p.strength := not_le.mpr (h p rest rfl)
      rw [release, if_neg hp]

/-- Over operators that wait, an operator releases the first ones and leaves the others. -/
theorem release_pending {o : Operator} {stack : List Pending} (h : Below o.strength stack) (pending : List Operator) :
    ∃ released kept, pending = released ++ kept ∧
      release o (pending.map .operator ++ stack) = (released.map .operator, kept.map .operator ++ stack) := by
  induction pending with
  | nil => exact ⟨[], [], rfl, release_of_below h⟩
  | cons p pending ih =>
    by_cases hp : o.strength ≤ p.strength
    · obtain ⟨released, kept, rfl, hrelease⟩ := ih
      refine ⟨p :: released, kept, rfl, ?_⟩
      rw [List.map_cons, List.cons_append, release, if_pos hp, hrelease]
      rfl
    · refine ⟨[], p :: pending, rfl, ?_⟩
      rw [List.map_cons, List.cons_append, release, if_neg hp]
      rfl

/-- All operators that are at least as strong are released. -/
theorem release_all {o : Operator} {stack : List Pending} (h : Below o.strength stack) {pending : List Operator}
    (hp : ∀ p ∈ pending, o.strength ≤ p.strength) :
    release o (pending.map .operator ++ stack) = (pending.map .operator, stack) := by
  induction pending with
  | nil => exact release_of_below h
  | cons p pending ih =>
    rw [List.map_cons, List.cons_append, release, if_pos (hp p List.mem_cons_self),
      ih fun q hq => hp q (List.mem_cons_of_mem p hq)]
    rfl

theorem close_pending (d : Delimiter) (position openedAt : Nat) {previous : Option Token.Kind}
    (h : previous ≠ some (.opening d)) (stack : List Pending) (pending : List Operator) :
    close d position previous (pending.map .operator ++ .opening d openedAt :: stack) =
      .ok (pending.map .operator, stack) := by
  induction pending with
  | nil => simp [close, h]
  | cons p pending ih =>
    rw [List.map_cons, List.cons_append, close, ih]
    rfl

theorem drain_pending (pending : List Operator) : drain (pending.map .operator) = .ok (pending.map .operator) := by
  induction pending with
  | nil => rfl
  | cons p pending ih =>
    rw [List.map_cons, drain, ih]
    rfl

end Postfix

namespace Expression

/-- A postorder that ends in repetitions belongs to an expression under these. -/
theorem exists_repeated_of_postorder {e : Expression} {out : List Postfix} {rs : List Repetition}
    (h : out ++ rs.map (fun r => .operator (.repetition r)) = e.postorder) :
    ∃ f : Expression, e = f.repeated rs ∧ out = f.postorder := by
  induction rs using List.reverseRecOn generalizing e with
  | nil => exact ⟨e, rfl, by simpa using h⟩
  | append_singleton rs r ih =>
    rw [List.map_append, ← List.append_assoc] at h
    cases e with
    | operand v =>
      have := congrArg List.getLast? h
      simp [postorder] at this
    | junction j e f =>
      have := congrArg List.getLast? h
      simp [postorder] at this
    | repetition s e =>
      obtain ⟨hout, hs⟩ := List.append_inj' h rfl
      obtain ⟨f, rfl, hf⟩ := ih hout
      obtain rfl : r = s := by simpa using hs
      exact ⟨f, by simp [repeated], hf⟩

end Expression

namespace Grammar

open Postfix

def Category.floor : Category → Nat
  | alternatives => 1
  | sequence => 2
  | factor => 3
  | atom => 6

/-- What has been put out and what waits make the postorder of an expression like `e`. -/
structure Settles (c : Category) (out : List Postfix) (pending : List Operator) (e : Expression) : Prop where
  strong : ∀ p ∈ pending, c.floor ≤ p.strength
  postorder : ∃ f : Expression,
    out ++ pending.map .operator = f.postorder ∧ f.language = e.language ∧ f.operands = e.operands

/-- Over any stack with nothing on top that binds as tightly, the tokens are read as `e`. -/
def Handles (c : Category) (tokens : List Token) (e : Expression) : Prop :=
  ∀ previous stack, Below c.floor stack → ∃ out pending last, last.endsOperand = true ∧
    Reads previous stack tokens out (some last) (pending.map .operator ++ stack) ∧ Settles c out pending e

/-- Operators as strong as repetitions are repetitions. -/
theorem exists_repetitions {pending : List Operator} (h : ∀ p ∈ pending, 3 ≤ p.strength) :
    ∃ rs : List Repetition, pending = rs.map .repetition := by
  induction pending with
  | nil => exact ⟨[], rfl⟩
  | cons p pending ih =>
    obtain ⟨rs, rfl⟩ := ih fun q hq => h q (List.mem_cons_of_mem p hq)
    have hp := h p List.mem_cons_self
    cases p with
    | repetition r => exact ⟨r :: rs, rfl⟩
    | junction j => cases j <;> simp [Operator.strength] at hp

namespace Handles

variable {c c' : Category} {xs ys : List Token} {e f : Expression}

theorem mono (h : Handles c xs e) (hc : c'.floor ≤ c.floor) : Handles c' xs e := by
  intro previous stack hstack
  obtain ⟨out, pending, last, hlast, hreads, hsettles⟩ := h previous stack (hstack.mono hc)
  exact ⟨out, pending, last, hlast, hreads, fun p hp => hc.trans (hsettles.strong p hp), hsettles.postorder⟩

theorem operand {t : Token} {v : Operand} (h : t.kind = .operand v) : Handles .atom [t] (.operand v) := by
  intro previous stack _
  refine ⟨[.operand v], [], t.kind, by rw [h]; rfl, Reads.operand h, by simp, .operand v, rfl, rfl, rfl⟩

theorem group {d : Delimiter} {o t : Token} (ho : o.kind = .opening d) (ht : t.kind = .closing d)
    (h : Handles .alternatives xs e) : Handles .atom (o :: xs ++ [t]) e := by
  intro previous stack _
  obtain ⟨out, pending, last, hlast, hreads, hsettles⟩ :=
    h (some o.kind) (.opening d o.position :: stack) (below_opening _ d _ stack)
  have hne : some last ≠ some (.opening d) := by
    rintro ⟨⟩
    cases hlast
  have hclose := close_pending d t.position o.position hne stack pending
  refine ⟨[] ++ out ++ pending.map .operator, [], t.kind, by rw [ht]; rfl, ?_, by simp, ?_⟩
  · exact ((Reads.opening ho).trans hreads).trans (Reads.closing ht hclose)
  · simpa using hsettles.postorder

/-- A repetition releases those that were stacked before it and bind tighter. -/
theorem repetition {r : Repetition} {t : Token} (ht : t.kind = .operator (.repetition r))
    (h : Handles .factor xs e) : Handles .factor (xs ++ [t]) (.repetition r e) := by
  intro previous stack hstack
  obtain ⟨out, pending, last, hlast, hreads, hstrong, f, hpost, hlang, hoperands⟩ := h previous stack hstack
  have hr : 3 ≤ (Operator.repetition r).strength := by cases r <;> decide
  obtain ⟨released, kept, hpending, hrelease⟩ := release_pending (hstack.mono hr) pending
  obtain ⟨rs, hrs⟩ := exists_repetitions hstrong
  obtain ⟨g, rfl, rfl⟩ : ∃ g : Expression, f = g.repeated rs ∧ out = g.postorder := by
    apply Expression.exists_repeated_of_postorder
    rw [← hpost, hrs, List.map_map]
    rfl
  -- `rs₁` is released and `rs₂` kept, so the new repetition comes to apply between the two.
  obtain ⟨rs₁, rs₂, rfl, rfl, rfl⟩ := List.map_eq_append_iff.mp (hrs.symm.trans hpending)
  refine ⟨_, .repetition r :: rs₂.map .repetition, t.kind, by rw [ht]; rfl,
    hreads.trans (Reads.operator ht hrelease), ?_, ((g.repeated rs₁).repetition r).repeated rs₂, ?_, ?_, ?_⟩
  · intro p hp
    rcases List.mem_cons.mp hp with rfl | hp
    · exact hr
    · exact hstrong p (by rw [hpending]; exact List.mem_append_right _ hp)
  · simp [Expression.postorder_repeated, Expression.postorder, Function.comp_def]
  · rw [Expression.language_repeated] at hlang ⊢
    change rs₂.foldl _ (r.language (g.repeated rs₁).language) = r.language e.language
    rw [Repetition.foldl_language_comm, Expression.language_repeated, ← List.foldl_append, hlang]
  · rw [Expression.operands_repeated] at hoperands ⊢
    change (g.repeated rs₁).operands = e.operands
    rw [Expression.operands_repeated, hoperands]

/-- A junction releases all that waits from its left operand, and waits itself under its right one. -/
theorem junction {j : Junction} {t : Token} (ht : t.kind = .operator (.junction j))
    (hj : c.floor = (Operator.junction j).strength) (hc : c.floor < c'.floor) (h : Handles c xs e)
    (h' : Handles c' ys f) : Handles c (xs ++ t :: ys) (.junction j e f) := by
  intro previous stack hstack
  obtain ⟨out, pending, last, -, hreads, hstrong, g, hpost, hlang, hoperands⟩ := h previous stack hstack
  have hrelease := release_all (hj ▸ hstack) (hj ▸ hstrong)
  obtain ⟨out', pending', last', hlast', hreads', hstrong', g', hpost', hlang', hoperands'⟩ :=
    h' (some t.kind) (.operator (.junction j) :: stack) (below_operator (hj ▸ hc) stack)
  refine ⟨out ++ (pending.map .operator ++ out'), pending' ++ [.junction j], last', hlast', ?_, ?_,
    .junction j g g', ?_, ?_, ?_⟩
  · have hjoined := (hreads.trans (Reads.operator ht hrelease)).trans hreads'
    simpa using hjoined
  · intro p hp
    rcases List.mem_append.mp hp with hp | hp
    · exact hc.le.trans (hstrong' p hp)
    · rw [List.mem_singleton.mp hp, hj]
  · simp [Expression.postorder, ← hpost, ← hpost']
  · simp only [Expression.language, hlang, hlang']
  · simp only [Expression.operands, hoperands, hoperands']

end Handles

/-- Tokens of a derivation, with every concatenation written out, are read as what is derived. -/
theorem Derives.handles {c : Category} {ks : List Token.Kind} {e : Expression} (h : Derives c ks e)
    {tokens : List Token} (hk : tokens.map Token.kind = ks) : Handles c (Token.joinFrom false tokens) e := by
  induction h generalizing tokens with
  | operand v =>
    obtain ⟨t, rfl, ht⟩ := List.map_eq_singleton_iff.mp hk
    exact .operand ht
  | group d _ ih =>
    obtain ⟨front, rear, rfl, hfront, hrear⟩ := List.map_eq_append_iff.mp hk
    obtain ⟨o, xs, rfl, ho, hxs⟩ := List.map_eq_cons_iff.mp hfront
    obtain ⟨t, rfl, ht⟩ := List.map_eq_singleton_iff.mp hrear
    rw [Token.joinFrom_concat (by rw [ht]; rfl), Token.joinFrom, ho]
    exact (ih hxs).group ho ht
  | atom _ ih | factor _ ih | sequence _ ih => exact (ih hk).mono (by decide)
  | repetition r _ ih =>
    obtain ⟨xs, rear, rfl, hxs, hrear⟩ := List.map_eq_append_iff.mp hk
    obtain ⟨t, rfl, ht⟩ := List.map_eq_singleton_iff.mp hrear
    rw [Token.joinFrom_concat (by rw [ht]; rfl)]
    exact (ih hxs).repetition ht
  | juxtaposition h h' ih ih' =>
    obtain ⟨xs, ys, rfl, hxs, hys⟩ := List.map_eq_append_iff.mp hk
    obtain ⟨k, rest, hl, hbegins⟩ := h'.first_beginsOperand
    obtain ⟨before, k', hl', hends⟩ := h.last_endsOperand
    obtain ⟨t, ys, rfl, ht, -⟩ := List.map_eq_cons_iff.mp (hys.trans hl)
    obtain ⟨front, rear, rfl, -, hrear⟩ := List.map_eq_append_iff.mp (hxs.trans hl')
    obtain ⟨u, rfl, hu⟩ := List.map_eq_singleton_iff.mp hrear
    -- An operand ends before the seam and one begins after it, so a `_` is written there.
    rw [Token.joinFrom_juxtaposition (by rw [Token.endsAfter_concat, hu, hends]) (by rw [ht, hbegins])]
    exact (ih hxs).junction rfl rfl (by decide) (ih' hys)
  | concatenation _ _ ih ih' | alternation _ _ ih ih' =>
    obtain ⟨xs, rear, rfl, hxs, hrear⟩ := List.map_eq_append_iff.mp hk
    obtain ⟨t, ys, rfl, ht, hys⟩ := List.map_eq_cons_iff.mp hrear
    rw [Token.joinFrom_junction ht]
    exact (ih hxs).junction ht rfl (by decide) (ih' hys)

/-- The postfix form of derived tokens is the postorder of an expression with the same language. -/
theorem Derives.order_eq {tokens : List Token} {e : Expression}
    (h : Derives .alternatives (tokens.map Token.kind) e) :
    ∃ f : Expression, order none [] (Token.insertConcatenation tokens) = .ok f.postorder ∧
      f.language = e.language ∧ f.operands = e.operands := by
  obtain ⟨out, pending, last, -, hreads, -, f, hpost, hlang, hoperands⟩ :=
    h.handles rfl none [] (below_nil _)
  refine ⟨f, ?_, hlang, hoperands⟩
  have hall := hreads []
  rw [List.append_nil, List.append_nil, order, drain_pending] at hall
  rw [Token.insertConcatenation_eq, hall, ← hpost]
  rfl

end Grammar

end PatternAutomata
