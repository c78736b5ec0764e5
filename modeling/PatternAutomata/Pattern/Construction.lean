import PatternAutomata.Pattern.Postfix

namespace PatternAutomata

/-- How to build fragments of type `φ`, with effects in `m`. -/
structure Construction (m : Type → Type) (φ : Type) where
  operand : Operand → m φ
  repetition : Repetition → φ → m φ
  junction : Junction → φ → φ → m φ

namespace Construction

def indexFrom? (needle : List Char) (i : Nat) : List Char → Option Nat
  | [] => none
  | c :: rest => if needle.isPrefixOf (c :: rest) then some i else indexFrom? needle (i + 1) rest

/-- The index at which a range first stands in `pattern`, 0 if it never does. -/
def rangeIndex (first last : Char) (pattern : String) : Nat :=
  (indexFrom? (Operand.range first last).text 0 pattern.toList).getD 0

def result {φ : Type} : List φ → Except PatternError.Cause φ
  | [f] => .ok f
  | [] => .error .emptyPattern
  | stack => .error (.danglingOperands stack.length)

/-- Builds from left to right over a stack of fragments; `pattern` only places a backward range. -/
def buildOn {m : Type → Type} [Monad m] {φ : Type} (c : Construction m φ) (pattern : String) :
    List φ → List Postfix → m (Except PatternError.Cause φ)
  | stack, [] => pure (result stack)
  | stack, .operand v :: rest =>
    match v with
    | .range first last =>
      if last < first then
        pure (.error (.backwardRange first last (rangeIndex first last pattern)))
      else do
        let f ← c.operand v
        buildOn c pattern (f :: stack) rest
    | .char _ => do
      let f ← c.operand v
      buildOn c pattern (f :: stack) rest
  | f :: stack, .operator (.repetition r) :: rest => do
    let g ← c.repetition r f
    buildOn c pattern (g :: stack) rest
  | right :: left :: stack, .operator (.junction j) :: rest => do
    let f ← c.junction j left right
    buildOn c pattern (f :: stack) rest
  | _, .operator o :: _ => pure (.error (.missingOperand o))

def build {m : Type → Type} [Monad m] {φ : Type} (c : Construction m φ) (pattern : String)
    (items : List Postfix) : m (Except PatternError φ) := do
  let r ← c.buildOn pattern [] items
  pure (r.mapError (⟨pattern, ·⟩))

end Construction

end PatternAutomata
