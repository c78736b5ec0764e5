import PatternAutomata.Proofs.Pattern.Expression
import PatternAutomata.Proofs.Pattern.Tokens

namespace PatternAutomata

namespace Grammar

/-- What a stretch of kinds is read as, from the loosest to the tightest. -/
inductive Category
  | alternatives
  | sequence
  | factor
  | atom
deriving DecidableEq

/-- The grammar of patterns. Alternation binds loosest, then concatenation, then the repetitions, which apply to their
operand from left to right; both delimiters group. -/
inductive Derives : Category → List Token.Kind → Expression → Prop
  | operand (v : Operand) : Derives .atom [.operand v] (.operand v)
  | group (d : Delimiter) {ks : List Token.Kind} {e : Expression} :
    Derives .alternatives ks e → Derives .atom (.opening d :: ks ++ [.closing d]) e
  | atom {ks : List Token.Kind} {e : Expression} : Derives .atom ks e → Derives .factor ks e
  | repetition (r : Repetition) {ks : List Token.Kind} {e : Expression} :
    Derives .factor ks e → Derives .factor (ks ++ [.operator (.repetition r)]) (.repetition r e)
  | factor {ks : List Token.Kind} {e : Expression} : Derives .factor ks e → Derives .sequence ks e
  | juxtaposition {ks ls : List Token.Kind} {e f : Expression} :
    Derives .sequence ks e → Derives .factor ls f → Derives .sequence (ks ++ ls) (.junction .concat e f)
  | concatenation {ks ls : List Token.Kind} {e f : Expression} :
    Derives .sequence ks e → Derives .factor ls f →
      Derives .sequence (ks ++ .operator (.junction .concat) :: ls) (.junction .concat e f)
  | sequence {ks : List Token.Kind} {e : Expression} : Derives .sequence ks e → Derives .alternatives ks e
  | alternation {ks ls : List Token.Kind} {e f : Expression} :
    Derives .alternatives ks e → Derives .sequence ls f →
      Derives .alternatives (ks ++ .operator (.junction .alternate) :: ls) (.junction .alternate e f)

namespace Derives

variable {c : Category} {ks : List Token.Kind} {e : Expression}

theorem first_beginsOperand (h : Derives c ks e) : ∃ k rest, ks = k :: rest ∧ k.beginsOperand = true := by
  induction h with
  | operand v => exact ⟨_, _, rfl, rfl⟩
  | group d _ _ => exact ⟨_, _, rfl, rfl⟩
  | atom _ ih | factor _ ih | sequence _ ih => exact ih
  | repetition r _ ih =>
    obtain ⟨k, rest, rfl, hk⟩ := ih
    exact ⟨k, _, rfl, hk⟩
  | juxtaposition _ _ ih _ | concatenation _ _ ih _ | alternation _ _ ih _ =>
    obtain ⟨k, rest, rfl, hk⟩ := ih
    exact ⟨k, _, rfl, hk⟩

theorem last_endsOperand (h : Derives c ks e) : ∃ before k, ks = before ++ [k] ∧ k.endsOperand = true := by
  induction h with
  | operand v => exact ⟨[], _, rfl, rfl⟩
  | @group d ks _ _ _ => exact ⟨.opening d :: ks, _, rfl, rfl⟩
  | atom _ ih | factor _ ih | sequence _ ih => exact ih
  | repetition r _ _ => exact ⟨_, _, rfl, rfl⟩
  | @juxtaposition ks _ _ _ _ _ _ ih =>
    obtain ⟨before, k, rfl, hk⟩ := ih
    exact ⟨ks ++ before, k, (List.append_assoc ..).symm, hk⟩
  | @concatenation ks _ _ _ _ _ _ ih =>
    obtain ⟨before, k, rfl, hk⟩ := ih
    exact ⟨ks ++ .operator (.junction .concat) :: before, k, by simp, hk⟩
  | @alternation ks _ _ _ _ _ _ ih =>
    obtain ⟨before, k, rfl, hk⟩ := ih
    exact ⟨ks ++ .operator (.junction .alternate) :: before, k, by simp, hk⟩

end Derives

def operand? : Token.Kind → Option Operand
  | .operand v => some v
  | .opening _ | .closing _ | .operator _ => none

theorem Derives.operands_eq {c : Category} {ks : List Token.Kind} {e : Expression} (h : Derives c ks e) :
    e.operands = ks.filterMap operand? := by
  induction h with
  | operand v => rfl
  | group d _ ih => simp [ih, operand?, List.filterMap_cons]
  | atom _ ih | factor _ ih | sequence _ ih => exact ih
  | repetition r _ ih => simp [Expression.operands, ih, operand?]
  | juxtaposition _ _ ih ih' | concatenation _ _ ih ih' | alternation _ _ ih ih' =>
    simp [Expression.operands, ih, ih', operand?, List.filterMap_cons]

def lastBracket? (before : List Token.Kind) : Option Token.Kind :=
  before.reverse.find? fun k => k = .opening .bracket || k = .closing .bracket

def insideClass (before : List Token.Kind) : Bool := lastBracket? before = some (.opening .bracket)

/-- What is read between the last of some kinds and the next: `|` between operands of a class. -/
def implied (before : List Token.Kind) (next : Token.Kind) : List Token.Kind :=
  match before.getLast? with
  | some k => if k.isOperand && next.isOperand && insideClass before then [.operator (.junction .alternate)] else []
  | none => []

/-- The kinds with all that is read between them, where `before` stands to their left. -/
def readOut (before : List Token.Kind) : List Token.Kind → List Token.Kind
  | [] => []
  | k :: rest => implied before k ++ k :: readOut (before ++ [k]) rest

def kindsOf (pattern : String) : List Token.Kind :=
  readOut [] ((Token.split 0 pattern.toList).map Token.kind)

/-- The words that a reading of the pattern stands for. -/
def language (pattern : String) : Language Char :=
  {w | ∃ e, Derives .alternatives (kindsOf pattern) e ∧ w ∈ e.language}

theorem mem_language {pattern : String} {w : List Char} :
    w ∈ language pattern ↔ ∃ e, Derives .alternatives (kindsOf pattern) e ∧ w ∈ e.language := Iff.rfl

theorem insideClass_concat (before : List Token.Kind) (k : Token.Kind) :
    insideClass (before ++ [k]) =
      if k = .opening .bracket then true else if k = .closing .bracket then false else insideClass before := by
  unfold insideClass lastBracket?
  rw [List.reverse_append, List.reverse_singleton, List.singleton_append, List.find?_cons]
  split_ifs with hopen hclose
  · simp [hopen]
  · simp [hclose]
  · simp [hopen, hclose]

theorem implied_of_isOperand_eq_false {before : List Token.Kind} {k : Token.Kind} (h : k.isOperand = false) :
    implied before k = [] := by
  unfold implied
  split <;> simp [h]

end Grammar

namespace Token

/-- The tokens, with `|` between two operands that follow each other wherever `here` holds of what is before the second;
`before` stands to their left. -/
def insertAlternation (here : List Token → Bool) (before : List Token) : List Token → List Token
  | [] => []
  | t :: rest =>
    if before.getLast?.any (·.kind.isOperand) && t.kind.isOperand && here before then
      ⟨.operator (.junction .alternate), t.position⟩ :: t :: insertAlternation here (before ++ [t]) rest
    else t :: insertAlternation here (before ++ [t]) rest

def afterOpening (before : List Token) : Bool := Grammar.insideClass (before.map kind)

theorem afterOpening_concat (before : List Token) (t : Token) :
    afterOpening (before ++ [t]) =
      if t.kind = .opening .bracket then true else if t.kind = .closing .bracket then false else afterOpening before := by
  rw [afterOpening, List.map_append, List.map_singleton, Grammar.insideClass_concat]
  rfl

/-- The pass that opens up classes goes by two facts about what it has read: whether the last square bracket is an
opening one, and whether the last token is an operand. -/
theorem expandClasses_eq (before tokens : List Token) :
    expandClasses (afterOpening before) (before.getLast?.any (·.kind.isOperand)) tokens =
      insertAlternation afterOpening before tokens := by
  induction tokens generalizing before with
  | nil => rfl
  | cons t rest ih =>
    have hstep := ih (before ++ [t])
    rw [afterOpening_concat, List.getLast?_concat] at hstep
    rw [expandClasses, insertAlternation, ← hstep]
    split
    · next hk => simp [hk, Kind.isOperand]
    · next hk => simp [hk, Kind.isOperand]
    · next v hk => simp [hk, Kind.isOperand, and_comm]
    · next h₁ h₂ h₃ =>
      have hoperand : t.kind.isOperand = false := by
        cases hk : t.kind with
        | operand v => exact absurd hk (h₃ v)
        | _ => rfl
      have hopening : t.kind ≠ .opening .bracket := h₁
      have hclosing : t.kind ≠ .closing .bracket := h₂
      simp [hoperand, hopening, hclosing]

end Token

namespace Grammar

theorem kind_insertAlternation (before tokens : List Token) :
    (Token.insertAlternation Token.afterOpening before tokens).map Token.kind =
      readOut (before.map Token.kind) (tokens.map Token.kind) := by
  induction tokens generalizing before with
  | nil => rfl
  | cons t rest ih =>
    have hstep := ih (before ++ [t])
    rw [List.map_append, List.map_singleton] at hstep
    have himplied : implied (before.map Token.kind) t.kind =
        if before.getLast?.any (·.kind.isOperand) && t.kind.isOperand && Token.afterOpening before then
          [.operator (.junction .alternate)] else [] := by
      rw [implied, List.getLast?_map]
      cases before.getLast? <;> rfl
    rw [Token.insertAlternation, List.map_cons, readOut, ← hstep, himplied]
    cases before.getLast?.any (·.kind.isOperand) && t.kind.isOperand && Token.afterOpening before <;> rfl

/-- The pass that opens up classes reads exactly what is implied. -/
theorem kind_expandClasses (before : List Token.Kind) (tokens : List Token) :
    (Token.expandClasses (insideClass before) (before.getLast?.any Token.Kind.isOperand) tokens).map Token.kind =
      readOut before (tokens.map Token.kind) := by
  obtain ⟨left, rfl⟩ : ∃ left : List Token, before = left.map Token.kind :=
    ⟨before.map fun k => ⟨k, 0⟩, by rw [List.map_map]; exact (List.map_id before).symm⟩
  rw [← kind_insertAlternation, ← Token.expandClasses_eq, List.getLast?_map, Option.any_map]
  rfl

/-- Reading a pattern goes through its tokens with classes opened up. -/
theorem kindsOf_eq (pattern : String) :
    kindsOf pattern = (Token.expandClasses false false (Token.split 0 pattern.toList)).map Token.kind :=
  (kind_expandClasses [] (Token.split 0 pattern.toList)).symm

end Grammar

end PatternAutomata
