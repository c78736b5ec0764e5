import PatternAutomata.Pattern.Syntax
import PatternAutomata.Text

namespace PatternAutomata

/-- How a run stops outright instead of answering. -/
inductive Fault
  /-- A state id would pass the largest 64-bit number. -/
  | idOverflow
  | indexOutOfRange (length index : Nat)
  /-- A byte that cannot begin a UTF-8 sequence. -/
  | malformedCodePoint
deriving DecidableEq

def Fault.message : Fault → String
  | idOverflow => "attempt to add with overflow"
  | indexOutOfRange length index => s!"index out of bounds: the len is {length} but the index is {index}"
  | malformedCodePoint => "Malformed UTF-8 codepoint"

inductive PatternError.Cause
  | unexpectedInput (position : Nat)
  | backwardRange (first last : Char) (position : Nat)
  | reservedSymbol (symbol : Char) (position : Nat)
  | unmatchedClose (closed : Delimiter) (position : Nat)
  | mismatchedDelimiter (opened : Delimiter) (openedAt : Nat) (closed : Delimiter) (position : Nat)
  | emptyGroup (delimiter : Delimiter) (position : Nat)
  | unclosedGroup (opened : Delimiter) (position : Nat)
  | missingOperand (operator : Operator)
  | danglingOperands (count : Nat)
  | emptyPattern
deriving DecidableEq

structure PatternError where
  pattern : String
  cause : PatternError.Cause
deriving DecidableEq

namespace PatternError

def isMalformed (e : PatternError) : Bool :=
  match e.cause with
  | .backwardRange .. => false
  | _ => true

def Cause.message : Cause → String
  | unexpectedInput position => s!"unexpected input at index {position}"
  | backwardRange first last position => s!"invalid range `{first}-{last}` at index {position}"
  | reservedSymbol symbol position => s!"`{symbol}` at index {position} is reserved for ε-edges"
  | unmatchedClose closed position => s!"unmatched `{closed.closer}` at index {position}"
  | mismatchedDelimiter opened openedAt closed position =>
    s!"`{opened.opener}` at index {openedAt} is closed by `{closed.closer}` at index {position}"
  | emptyGroup delimiter position => s!"empty group `{delimiter.opener}{delimiter.closer}` at index {position}"
  | unclosedGroup opened position => s!"`{opened.opener}` at index {position} is never closed"
  | missingOperand operator => s!"operator `{operator.symbol}` is missing an operand"
  | danglingOperands count => s!"{count} fragments left after evaluation, expected one"
  | emptyPattern => "pattern is empty"

def message (e : PatternError) : String :=
  match e.cause with
  | .backwardRange .. => s!"{e.cause.message} of pattern {Text.quoted e.pattern}: start is after end"
  | _ => s!"malformed pattern {Text.quoted e.pattern}: {e.cause.message}"

end PatternError

end PatternAutomata
