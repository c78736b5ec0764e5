import PatternAutomata.Error

namespace PatternAutomata

inductive Token.Kind
  | operand (v : Operand)
  | opening (d : Delimiter)
  | closing (d : Delimiter)
  | operator (o : Operator)
deriving DecidableEq

structure Token where
  kind : Token.Kind
  position : Nat
deriving DecidableEq

namespace Token.Kind

def symbol? : Char → Option Kind
  | '(' => some (opening .paren)
  | ')' => some (closing .paren)
  | '[' => some (opening .bracket)
  | ']' => some (closing .bracket)
  | '*' => some (operator (.repetition .star))
  | '+' => some (operator (.repetition .plus))
  | '?' => some (operator (.repetition .optional))
  | '_' => some (operator (.junction .concat))
  | '|' => some (operator (.junction .alternate))
  | _ => none

def text : Kind → List Char
  | operand v => v.text
  | opening d => [d.opener]
  | closing d => [d.closer]
  | operator o => [o.symbol]

def isOperand : Kind → Bool
  | operand _ => true
  | _ => false

def endsOperand : Kind → Bool
  | operand _ | closing _ | operator (.repetition _) => true
  | opening _ | operator (.junction _) => false

def beginsOperand : Kind → Bool
  | operand _ | opening _ => true
  | closing _ | operator _ => false

end Token.Kind

namespace Token

/-- Characters that may stand at neither end of a range. -/
def reservedInRange : List Char := ['(', ')', '[', ']', '*', '+', '?', '_', '|', '-']

def isEndpoint (c : Char) : Bool := !reservedInRange.contains c

def range? : List Char → Option (Kind × Nat)
  | c :: hyphen :: d :: _ =>
    if hyphen == '-' && isEndpoint c && isEndpoint d then some (.operand (.range c d), 3) else none
  | _ => none

def symbol? : List Char → Option (Kind × Nat)
  | c :: _ => (Kind.symbol? c).map (·, 1)
  | [] => none

def char? : List Char → Option (Kind × Nat)
  | c :: _ => some (.operand (.char c), 1)
  | [] => none

/-- The token at the start of the text, and how many characters it takes: a range if one can be read. -/
def first? (text : List Char) : Option (Kind × Nat) := (range? text).or ((symbol? text).or (char? text))

/-- What makes an operand unusable: it runs backwards, or it contains ε. -/
def fault? (t : Token) : Option PatternError.Cause :=
  match t.kind with
  | .operand (.range first last) =>
    if last < first then some (.backwardRange first last t.position)
    else if (Operand.range first last).contains epsilon then some (.reservedSymbol epsilon t.position)
    else none
  | .operand (.char c) => if c = epsilon then some (.reservedSymbol epsilon t.position) else none
  | _ => none

/-- Reads a text from the character with index `position` on. The token before it takes `taken` more characters. -/
def read (position taken : Nat) : List Char → Except PatternError.Cause (List Token)
  | [] => .ok []
  | c :: rest =>
    match taken with
    | taken + 1 => read (position + 1) taken rest
    | 0 =>
      match first? (c :: rest) with
      | none => .error (.unexpectedInput position)
      | some (kind, length) =>
        match fault? ⟨kind, position⟩ with
        | some cause => .error cause
        | none => do
          let tokens ← read (position + 1) (length - 1) rest
          pure (⟨kind, position⟩ :: tokens)

def ofPattern? (pattern : String) : Except PatternError.Cause (List Token) := read 0 0 pattern.toList

/-- Puts `|` between adjacent operands wherever the last bracket before them is `[`. -/
def expandClasses (inClass afterOperand : Bool) : List Token → List Token
  | [] => []
  | t :: rest =>
    match t.kind with
    | .opening .bracket => t :: expandClasses true false rest
    | .closing .bracket => t :: expandClasses false false rest
    | .operand _ =>
      if inClass && afterOperand then
        ⟨.operator (.junction .alternate), t.position⟩ :: t :: expandClasses inClass true rest
      else t :: expandClasses inClass true rest
    | _ => t :: expandClasses inClass false rest

/-- Puts `_` wherever one operand ends and the next begins. -/
def insertConcatenation : List Token → List Token
  | [] => []
  | [t] => [t]
  | t :: u :: rest =>
    if t.kind.endsOperand && u.kind.beginsOperand then
      t :: ⟨.operator (.junction .concat), u.position⟩ :: insertConcatenation (u :: rest)
    else t :: insertConcatenation (u :: rest)

def explicit (tokens : List Token) : List Token := insertConcatenation (expandClasses false false tokens)

end Token

end PatternAutomata
