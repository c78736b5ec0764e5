namespace PatternAutomata

/-- The character that stands for an empty move; no operand may contain it. -/
def epsilon : Char := 'ε'

inductive Operand
  | char (c : Char)
  | range (first last : Char)
deriving DecidableEq

/-- The Unicode scalar value `n`; surrogates and numbers past the last plane are none. -/
def scalar? (n : Nat) : Option Char := if h : n.isValidChar then some (Char.ofNatAux n h) else none

def charsBetween (first last : Char) : List Char :=
  (List.range' first.toNat (last.toNat + 1 - first.toNat)).filterMap scalar?

namespace Operand

def chars : Operand → List Char
  | char c => [c]
  | range first last => charsBetween first last

def contains : Operand → Char → Bool
  | char c, x => x == c
  | range first last, x => first ≤ x && x ≤ last

def isBackward : Operand → Bool
  | char _ => false
  | range first last => last < first

def text : Operand → List Char
  | char c => [c]
  | range first last => [first, '-', last]

end Operand

inductive Delimiter
  | paren
  | bracket
deriving DecidableEq

namespace Delimiter

def opener : Delimiter → Char
  | paren => '('
  | bracket => '['

def closer : Delimiter → Char
  | paren => ')'
  | bracket => ']'

end Delimiter

inductive Repetition
  | star
  | plus
  | optional
deriving DecidableEq

inductive Junction
  | concat
  | alternate
deriving DecidableEq

inductive Operator
  | repetition (r : Repetition)
  | junction (j : Junction)
deriving DecidableEq

namespace Operator

def symbol : Operator → Char
  | repetition .star => '*'
  | repetition .plus => '+'
  | repetition .optional => '?'
  | junction .concat => '_'
  | junction .alternate => '|'

/-- How tightly the operator binds: a waiting operator goes out before one that is not stronger. So of stacked postfix
operators `*` goes out before `+`, and that before `?`. -/
def strength : Operator → Nat
  | repetition .star => 5
  | repetition .plus => 4
  | repetition .optional => 3
  | junction .concat => 2
  | junction .alternate => 1

end Operator

end PatternAutomata
