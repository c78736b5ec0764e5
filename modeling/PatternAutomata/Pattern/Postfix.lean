import PatternAutomata.Pattern.Token

namespace PatternAutomata

inductive Postfix
  | operand (v : Operand)
  | operator (o : Operator)
deriving DecidableEq

namespace Postfix

def text : Postfix → List Char
  | operand v => v.text
  | operator o => [o.symbol]

/-- What waits on the stack for tokens to come. -/
inductive Pending
  | opening (d : Delimiter) (position : Nat)
  | operator (o : Operator)
deriving DecidableEq

/-- The waiting operators that bind at least as tightly as `o`, and the stack without them. -/
def release (o : Operator) : List Pending → List Postfix × List Pending
  | .operator p :: stack =>
    if o.strength ≤ p.strength then
      let (out, rest) := release o stack
      (.operator p :: out, rest)
    else ([], .operator p :: stack)
  | stack => ([], stack)

/-- The operators that wait inside the innermost group, and the stack below that group. Here
`previous` is the token right before the closing delimiter. -/
def close (d : Delimiter) (position : Nat) (previous : Option Token.Kind) :
    List Pending → Except PatternError.Cause (List Postfix × List Pending)
  | [] => .error (.unmatchedClose d position)
  | .operator o :: stack => do
    let (out, rest) ← close d position previous stack
    pure (.operator o :: out, rest)
  | .opening opened openedAt :: stack =>
    if opened ≠ d then .error (.mismatchedDelimiter opened openedAt d position)
    else if previous = some (.opening opened) then .error (.emptyGroup opened openedAt)
    else .ok ([], stack)

def drain : List Pending → Except PatternError.Cause (List Postfix)
  | [] => .ok []
  | .operator o :: stack => do
    let out ← drain stack
    pure (.operator o :: out)
  | .opening d position :: _ => .error (.unclosedGroup d position)

/-- The postfix form of infix tokens in which every operator is explicit. -/
def order (previous : Option Token.Kind) (stack : List Pending) :
    List Token → Except PatternError.Cause (List Postfix)
  | [] => drain stack
  | t :: rest =>
    match t.kind with
    | .operand v => do
      let out ← order (some t.kind) stack rest
      pure (.operand v :: out)
    | .opening d => order (some t.kind) (.opening d t.position :: stack) rest
    | .closing d => do
      let (released, stack) ← close d t.position previous stack
      let out ← order (some t.kind) stack rest
      pure (released ++ out)
    | .operator o => do
      let (released, stack) := release o stack
      let out ← order (some t.kind) (.operator o :: stack) rest
      pure (released ++ out)

def ofPattern? (pattern : String) : Except PatternError (List Postfix) :=
  ((Token.ofPattern? pattern).bind fun tokens => order none [] (Token.explicit tokens)).mapError (⟨pattern, ·⟩)

end Postfix

end PatternAutomata
