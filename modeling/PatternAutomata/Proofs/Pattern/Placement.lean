import PatternAutomata.Pattern.Postfix
import PatternAutomata.Proofs.Pattern.Evaluation
import PatternAutomata.Proofs.Pattern.Grammar
import PatternAutomata.Proofs.Pattern.Tokens

namespace PatternAutomata

open Grammar
open Token (joinFrom seam)
open scoped List

namespace Postfix

theorem net_perm {xs ys : List Postfix} (h : xs.Perm ys) : net xs = net ys := by
  induction h with
  | nil => rfl
  | cons i _ ih => rw [net, net, ih]
  | swap i j rest => simp only [net, Int.add_left_comm]
  | trans _ _ ih ih' => rw [ih, ih']

def waiting : List Pending → List Postfix
  | [] => []
  | .operator o :: rest => .operator o :: waiting rest
  | .opening _ _ :: rest => waiting rest

def held : List Pending → List (Delimiter × Nat)
  | [] => []
  | .operator _ :: rest => held rest
  | .opening d i :: rest => (d, i) :: held rest

def owed : List Pending → Int
  | [] => 0
  | .operator o :: rest => o.gain + owed rest
  | .opening _ _ :: rest => owed rest

def openIn : List Pending → List Delimiter
  | [] => []
  | .operator _ :: rest => openIn rest
  | .opening d _ :: rest => d :: openIn rest

theorem net_waiting (stack : List Pending) : net (waiting stack) = owed stack := by
  induction stack with
  | nil => rfl
  | cons p stack ih =>
    cases p with
    | operator o => rw [waiting, net, owed, ih]; rfl
    | opening d i => exact ih

theorem openIn_eq (stack : List Pending) : openIn stack = (held stack).map Prod.fst := by
  induction stack with
  | nil => rfl
  | cons p stack ih =>
    cases p with
    | operator o => exact ih
    | opening d i => rw [openIn, held, List.map_cons, ih]

end Postfix

namespace Token.Kind

def gain : Kind → Int
  | operand _ => 1
  | opening _ | closing _ => 0
  | operator o => o.gain

def item? : Kind → Option Postfix
  | operand v => some (.operand v)
  | operator o => some (.operator o)
  | opening _ | closing _ => none

def Shifts (k : Kind) (before after : List Delimiter) : Prop :=
  match k with
  | opening d => after = d :: before
  | closing d => before = d :: after
  | operand _ | operator _ => after = before

end Token.Kind

def Token.net : List Token → Int
  | [] => 0
  | t :: rest => t.kind.gain + net rest

theorem Token.net_append (xs ys : List Token) : net (xs ++ ys) = net xs + net ys := by
  induction xs with
  | nil => simp [net]
  | cons t rest ih =>
    rw [List.cons_append, net, net, ih]
    omega

def Token.items (tokens : List Token) : List Postfix := tokens.filterMap (·.kind.item?)

theorem Token.net_items (tokens : List Token) : Postfix.net (items tokens) = net tokens := by
  induction tokens with
  | nil => rfl
  | cons t rest ih =>
    obtain ⟨kind, i⟩ := t
    rw [net, ← ih]
    cases kind with
    | operand v | operator o => rfl
    | opening d | closing d => exact (Int.zero_add _).symm

namespace Postfix

theorem release_facts {o : Operator} {stack stack' : List Pending} {out : List Postfix}
    (h : release o stack = (out, stack')) : waiting stack = out ++ waiting stack' ∧ held stack' = held stack := by
  induction stack generalizing out with
  | nil =>
    obtain ⟨rfl, rfl⟩ := Prod.mk.inj h
    exact ⟨rfl, rfl⟩
  | cons p stack ih =>
    cases p with
    | opening d position =>
      obtain ⟨rfl, rfl⟩ := Prod.mk.inj h
      exact ⟨rfl, rfl⟩
    | operator p =>
      rw [release] at h
      split at h
      · obtain ⟨rfl, rfl⟩ := Prod.mk.inj h
        obtain ⟨hwaiting, hheld⟩ := ih rfl
        exact ⟨by rw [waiting, hwaiting, List.cons_append], hheld⟩
      · obtain ⟨rfl, rfl⟩ := Prod.mk.inj h
        exact ⟨rfl, rfl⟩

theorem close_facts {d : Delimiter} {position : Nat} {previous : Option Token.Kind} {stack stack' : List Pending}
    {out : List Postfix} (h : close d position previous stack = .ok (out, stack')) :
    waiting stack = out ++ waiting stack' ∧ ∃ i, held stack = (d, i) :: held stack' := by
  induction stack generalizing out with
  | nil => cases h
  | cons p stack ih =>
    cases p with
    | opening d' openedAt =>
      rw [close] at h
      split_ifs at h with hd he
      obtain ⟨rfl, rfl⟩ := Prod.mk.inj (Except.ok.inj h)
      obtain rfl := not_not.mp hd
      exact ⟨rfl, openedAt, rfl⟩
    | operator p =>
      rw [close] at h
      cases hc : close d position previous stack with
      | error cause => rw [hc] at h; cases h
      | ok r =>
        rw [hc] at h
        obtain ⟨rfl, rfl⟩ := Prod.mk.inj (Except.ok.inj h)
        obtain ⟨hwaiting, hheld⟩ := ih hc
        exact ⟨by rw [waiting, hwaiting, List.cons_append], hheld⟩

theorem drain_facts {stack : List Pending} {out : List Postfix} (h : drain stack = .ok out) :
    out = waiting stack ∧ held stack = [] := by
  induction stack generalizing out with
  | nil => cases h; exact ⟨rfl, rfl⟩
  | cons p stack ih =>
    cases p with
    | opening d position => cases h
    | operator p =>
      rw [drain] at h
      cases hd : drain stack with
      | error cause => rw [hd] at h; cases h
      | ok r =>
        rw [hd] at h
        cases h
        obtain ⟨rfl, hheld⟩ := ih hd
        exact ⟨rfl, hheld⟩

/-- One token of an ordering that succeeds: the open delimiters, and what comes out and still waits. -/
theorem order_step {previous : Option Token.Kind} {stack : List Pending} {t : Token} {rest : List Token}
    {out : List Postfix} (h : order previous stack (t :: rest) = .ok out) :
    ∃ stack' put out', out = put ++ out' ∧ order (some t.kind) stack' rest = .ok out' ∧
      t.kind.Shifts (openIn stack) (openIn stack') ∧
      (put ++ waiting stack').Perm (waiting stack ++ t.kind.item?.toList) := by
  -- Only closing looks at the delimiters on the stack; releasing operators stops at the first of them.
  rw [order] at h
  cases hk : t.kind with
  | operand v =>
    rw [hk] at h
    cases ho : order (some (.operand v)) stack rest with
    | error cause => simp only [ho] at h; cases h
    | ok out' =>
      simp only [ho] at h
      cases h
      exact ⟨stack, [.operand v], out', rfl, ho, rfl, List.perm_append_comm⟩
  | opening d =>
    rw [hk] at h
    exact ⟨.opening d t.position :: stack, [], out, rfl, h, rfl, by simp [waiting, Token.Kind.item?]⟩
  | closing d =>
    rw [hk] at h
    cases hc : close d t.position previous stack with
    | error cause => simp only [hc] at h; cases h
    | ok r =>
      obtain ⟨put, stack'⟩ := r
      simp only [hc] at h
      cases ho : order (some (.closing d)) stack' rest with
      | error cause => simp only [bind, Except.bind, ho] at h; cases h
      | ok out' =>
        simp only [bind, Except.bind, ho] at h
        cases h
        obtain ⟨hwaiting, i, hheld⟩ := close_facts hc
        refine ⟨stack', put, out', rfl, ho, ?_, by simp [hwaiting, Token.Kind.item?]⟩
        rw [openIn_eq, openIn_eq, hheld]
        rfl
  | operator o =>
    rw [hk] at h
    cases hr : release o stack with
    | mk put stack' =>
      simp only [hr] at h
      cases ho : order (some (.operator o)) (.operator o :: stack') rest with
      | error cause => simp only [bind, Except.bind, ho] at h; cases h
      | ok out' =>
        simp only [bind, Except.bind, ho] at h
        cases h
        obtain ⟨hwaiting, hheld⟩ := release_facts hr
        refine ⟨.operator o :: stack', put, out', rfl, ho, ?_, ?_⟩
        · show openIn stack' = openIn stack
          rw [openIn_eq, openIn_eq, hheld]
        · rw [hwaiting]
          exact List.perm_middle.trans (List.perm_append_singleton _ _).symm

/-- Ordering puts out what waits and what the tokens come to, each item once. -/
theorem order_perm {previous : Option Token.Kind} {stack : List Pending} {tokens : List Token} {out : List Postfix}
    (h : order previous stack tokens = .ok out) : out.Perm (waiting stack ++ Token.items tokens) := by
  induction tokens generalizing previous stack out with
  | nil =>
    obtain ⟨rfl, -⟩ := drain_facts h
    rw [Token.items, List.filterMap_nil, List.append_nil]
  | cons t rest ih =>
    obtain ⟨stack', put, out', rfl, h', -, hperm⟩ := order_step h
    have hitems : Token.items (t :: rest) = t.kind.item?.toList ++ Token.items rest := by
      rw [Token.items, List.filterMap_cons]
      cases t.kind.item? <;> rfl
    calc
      put ++ out'
      _ ~ put ++ (waiting stack' ++ Token.items rest) := (ih h').append_left put
      _ = (put ++ waiting stack') ++ Token.items rest := (List.append_assoc ..).symm
      _ ~ (waiting stack ++ t.kind.item?.toList) ++ Token.items rest := hperm.append_right _
      _ = waiting stack ++ Token.items (t :: rest) := by rw [List.append_assoc, hitems]

/-- Ordering neither loses nor makes fragments. -/
theorem net_order {previous : Option Token.Kind} {stack : List Pending} {tokens : List Token} {out : List Postfix}
    (h : order previous stack tokens = .ok out) : net out = owed stack + Token.net tokens := by
  rw [net_perm (order_perm h), net_append, net_waiting, Token.net_items]

end Postfix

namespace Token

/-- An operand begins wherever none has just ended, and one has ended at the end. -/
def Placed : Bool → List Token → Prop
  | afterOperand, [] => afterOperand = true
  | afterOperand, t :: rest => (afterOperand = true ∨ t.kind.beginsOperand = true) ∧ Placed t.kind.endsOperand rest

/-- With the `_` before it, a token gains at most what it changes about an operand having ended. -/
theorem net_seam_le (b : Bool) (t : Token) :
    net (seam b t) + t.kind.gain + b.toInt ≤ t.kind.endsOperand.toInt ∧
      (net (seam b t) + t.kind.gain + b.toInt = t.kind.endsOperand.toInt → b = true ∨ t.kind.beginsOperand = true) := by
  cases b with
  | true =>
    -- Whatever begins an operand here has a `_` before it, which takes away what it brings.
    refine ⟨?_, fun _ => .inl rfl⟩
    cases hk : t.kind with
    | operand v => simp [seam, hk, Kind.beginsOperand, Kind.endsOperand, net, Kind.gain, Operator.gain]
    | opening d => simp [seam, hk, Kind.beginsOperand, Kind.endsOperand, net, Kind.gain, Operator.gain]
    | closing d => simp [seam, hk, Kind.beginsOperand, Kind.endsOperand, net, Kind.gain]
    | operator o => cases o <;> simp [seam, hk, Kind.beginsOperand, Kind.endsOperand, net, Kind.gain, Operator.gain]
  | false =>
    rw [seam_false]
    cases hk : t.kind with
    | operand v => simp [Kind.endsOperand, Kind.beginsOperand, net, Kind.gain]
    | opening d => simp [Kind.endsOperand, Kind.beginsOperand, net, Kind.gain]
    | closing d => simp [Kind.endsOperand, net, Kind.gain]
    | operator o => cases o <;> simp [Kind.endsOperand, net, Kind.gain, Operator.gain]

/-- The gain never exceeds what one operand brings, and reaches it only if all is well placed. -/
theorem net_joinFrom_le (b : Bool) (tokens : List Token) :
    net (joinFrom b tokens) + b.toInt ≤ 1 ∧ (net (joinFrom b tokens) + b.toInt = 1 → Placed b tokens) := by
  induction tokens generalizing b with
  | nil => cases b <;> simp [joinFrom, net, Placed]
  | cons t rest ih =>
    obtain ⟨hle, hplaced⟩ := ih t.kind.endsOperand
    obtain ⟨hseam, hbegins⟩ := net_seam_le b t
    rw [joinFrom, net_append, net]
    refine ⟨by omega, fun h => ?_⟩
    exact ⟨hbegins (by omega), hplaced (by omega)⟩

theorem placed_of_net_eq_one {tokens : List Token} (h : net (joinFrom false tokens) = 1) : Placed false tokens :=
  (net_joinFrom_le false tokens).2 (by simpa using h)

end Token

namespace Grammar

/-- What stands in a group before its last alternative. -/
inductive Head : List Token.Kind → Prop
  | nil : Head []
  | alternatives {ks : List Token.Kind} {e : Expression} (h : Derives .alternatives ks e) :
    Head (ks ++ [.operator (.junction .alternate)])

/-- A group so far, if an operand has just ended. -/
inductive Body : List Token.Kind → Prop
  | sequence {hs ks : List Token.Kind} {e : Expression} (hh : Head hs) (h : Derives .sequence ks e) : Body (hs ++ ks)

/-- A group so far, if an operand may begin. -/
inductive Lead : List Token.Kind → Prop
  | head {hs : List Token.Kind} (h : Head hs) : Lead hs
  | body {bs : List Token.Kind} (h : Body bs) : Lead bs
  | concat {bs : List Token.Kind} (h : Body bs) : Lead (bs ++ [.operator (.junction .concat)])

/-- A repetition after a sequence applies to its last factor. -/
theorem Derives.sequence_repetition {ks : List Token.Kind} {e : Expression} (h : Derives .sequence ks e)
    (r : Repetition) : ∃ f, Derives .sequence (ks ++ [.operator (.repetition r)]) f := by
  cases h with
  | factor h => exact ⟨_, .factor (.repetition r h)⟩
  | juxtaposition h h' =>
    rw [List.append_assoc]
    exact ⟨_, .juxtaposition h (.repetition r h')⟩
  | concatenation h h' =>
    rw [List.append_assoc]
    exact ⟨_, .concatenation h (.repetition r h')⟩

theorem Lead.atom {ls ks : List Token.Kind} {e : Expression} (hl : Lead ls) (h : Derives .atom ks e) :
    Body (ls ++ ks) := by
  cases hl with
  | head hh => exact .sequence hh (.factor (.atom h))
  | body hb =>
    obtain ⟨hh, hs⟩ := hb
    rw [List.append_assoc]
    exact .sequence hh (.juxtaposition hs (.atom h))
  | concat hb =>
    obtain ⟨hh, hs⟩ := hb
    rw [List.append_assoc, List.append_assoc]
    exact .sequence hh (.concatenation hs (.atom h))

theorem Body.repetition {bs : List Token.Kind} (hb : Body bs) (r : Repetition) :
    Body (bs ++ [.operator (.repetition r)]) := by
  obtain ⟨hh, hs⟩ := hb
  obtain ⟨f, hf⟩ := hs.sequence_repetition r
  rw [List.append_assoc]
  exact .sequence hh hf

theorem Body.derives {bs : List Token.Kind} (hb : Body bs) : ∃ e, Derives .alternatives bs e := by
  obtain ⟨hh, hs⟩ := hb
  cases hh with
  | nil => exact ⟨_, .sequence hs⟩
  | alternatives ha =>
    rw [List.append_assoc]
    exact ⟨_, .alternation ha hs⟩

/-- The groups around a place, each with its opening delimiter; the innermost comes first in the list. -/
inductive Outer : List Delimiter → List Token.Kind → Prop
  | nil : Outer [] []
  | group {ds : List Delimiter} {os ls : List Token.Kind} (d : Delimiter) (ho : Outer ds os) (hl : Lead ls) :
    Outer (d :: ds) (os ++ ls ++ [.opening d])

/-- What has been read before a place with the delimiters `ds` open. -/
inductive Before : Bool → List Delimiter → List Token.Kind → Prop
  | lead {ds : List Delimiter} {os ls : List Token.Kind} (ho : Outer ds os) (hl : Lead ls) : Before false ds (os ++ ls)
  | body {ds : List Delimiter} {os bs : List Token.Kind} (ho : Outer ds os) (hb : Body bs) : Before true ds (os ++ bs)

theorem Before.outer_lead {b : Bool} {ds : List Delimiter} {ks : List Token.Kind} (h : Before b ds ks) :
    ∃ os ls, Outer ds os ∧ Lead ls ∧ ks = os ++ ls := by
  cases h with
  | lead ho hl => exact ⟨_, _, ho, hl, rfl⟩
  | body ho hb => exact ⟨_, _, ho, .body hb, rfl⟩

theorem Before.outer_body {ds : List Delimiter} {ks : List Token.Kind} (h : Before true ds ks) :
    ∃ os bs, Outer ds os ∧ Body bs ∧ ks = os ++ bs := by
  cases h with
  | body ho hb => exact ⟨_, _, ho, hb, rfl⟩

/-- A well placed kind extends what has been read. -/
theorem Before.step {b : Bool} {ds ds' : List Delimiter} {ks : List Token.Kind} {k : Token.Kind} (h : Before b ds ks)
    (hplaced : b = true ∨ k.beginsOperand = true) (hshift : k.Shifts ds ds') :
    Before k.endsOperand ds' (ks ++ [k]) := by
  cases k with
  | operand v =>
    obtain ⟨os, ls, ho, hl, rfl⟩ := h.outer_lead
    obtain rfl : ds' = ds := hshift
    rw [List.append_assoc]
    exact .body ho (hl.atom (.operand v))
  | opening d =>
    obtain ⟨os, ls, ho, hl, rfl⟩ := h.outer_lead
    obtain rfl : ds' = d :: ds := hshift
    simpa [Token.Kind.endsOperand] using Before.lead (.group d ho hl) (.head .nil)
  | closing d =>
    obtain rfl : b = true := by simpa [Token.Kind.beginsOperand] using hplaced
    obtain rfl : ds = d :: ds' := hshift
    obtain ⟨_, bs, ho, hb, rfl⟩ := h.outer_body
    obtain ⟨e, he⟩ := hb.derives
    -- The whole group is an atom of what stands around it.
    obtain _ | ⟨_, ho, hl⟩ := ho
    simpa [Token.Kind.endsOperand] using Before.body ho (hl.atom (.group d he))
  | operator o =>
    obtain rfl : b = true := by simpa [Token.Kind.beginsOperand] using hplaced
    obtain rfl : ds' = ds := hshift
    obtain ⟨os, bs, ho, hb, rfl⟩ := h.outer_body
    rw [List.append_assoc]
    match o with
    | .repetition r => exact .body ho (hb.repetition r)
    | .junction .concat => exact .lead ho (.concat hb)
    | .junction .alternate =>
      obtain ⟨e, he⟩ := hb.derives
      exact .lead ho (.head (.alternatives he))

/-- Well placed tokens that can be ordered complete what has been read. -/
theorem Before.run {b : Bool} {ks : List Token.Kind} {tokens : List Token} {previous : Option Token.Kind}
    {stack : List Postfix.Pending} {out : List Postfix} (h : Before b (Postfix.openIn stack) ks)
    (hplaced : Token.Placed b tokens) (hout : Postfix.order previous stack (joinFrom b tokens) = .ok out) :
    Before true [] (ks ++ tokens.map Token.kind) := by
  induction tokens generalizing b ks previous stack out with
  | nil =>
    obtain rfl : b = true := hplaced
    rw [Postfix.openIn_eq, (Postfix.drain_facts hout).2] at h
    simpa using h
  | cons t rest ih =>
    obtain ⟨hbegins, hrest⟩ := hplaced
    -- The `_` in front of the token, if any, leaves the open delimiters as they are.
    obtain ⟨previous', stack', out', hopen, hout'⟩ : ∃ previous' stack' out',
        Postfix.openIn stack' = Postfix.openIn stack ∧
          Postfix.order previous' stack' (t :: joinFrom t.kind.endsOperand rest) = .ok out' := by
      rw [joinFrom, seam] at hout
      split at hout
      · obtain ⟨stack', put, out', -, h', hshift, -⟩ := Postfix.order_step hout
        exact ⟨_, stack', out', hshift, h'⟩
      · exact ⟨_, stack, out, rfl, hout⟩
    obtain ⟨stack'', put, out'', -, h'', hshift, -⟩ := Postfix.order_step hout'
    rw [hopen] at hshift
    simpa using ih (h.step hbegins hshift) hrest h''

/-- Tokens whose postfix form is the postorder of an expression are derivable. -/
theorem exists_derives_of_order {tokens : List Token} {e : Expression}
    (h : Postfix.order none [] (Token.insertConcatenation tokens) = .ok e.postorder) :
    ∃ f, Derives .alternatives (tokens.map Token.kind) f := by
  rw [Token.insertConcatenation_eq] at h
  -- One fragment is left, which is as much as any tokens can leave, so nothing is misplaced.
  have hnet : Token.net (joinFrom false tokens) = 1 := by
    have := Postfix.net_order h
    rw [e.net_postorder] at this
    simpa [Postfix.owed] using this.symm
  have hstart : Before false (Postfix.openIn []) ([] ++ []) := .lead .nil (.head .nil)
  have hbefore := hstart.run (Token.placed_of_net_eq_one hnet) h
  obtain ⟨os, bs, ho, hb, hks⟩ := hbefore.outer_body
  cases ho
  obtain rfl : tokens.map Token.kind = bs := hks
  exact hb.derives

end Grammar

end PatternAutomata
