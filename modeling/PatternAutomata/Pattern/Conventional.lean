import PatternAutomata.Pattern.Construction
import PatternAutomata.Regex

namespace PatternAutomata

namespace Conventional

def grouped (inner : List Char) : List Char := ['(', '?', ':'] ++ inner ++ [')']

def operand : Operand → List Char
  | .char c => Regex.escape c
  | .range first last => ['['] ++ Regex.escape first ++ ['-'] ++ Regex.escape last ++ [']']

def repetition (r : Repetition) (inner : List Char) : List Char :=
  grouped inner ++ [(Operator.repetition r).symbol]

def junction : Junction → List Char → List Char → List Char
  | .concat, left, right => left ++ right
  | .alternate, left, right => grouped (left ++ ['|'] ++ right)

def construction : Construction Id (List Char) where
  operand v := operand v
  repetition r inner := repetition r inner
  junction j left right := junction j left right

/-- The pattern as every reader of regular expressions understands it, with groups around all repetitions and
alternatives. -/
def ofPattern? (pattern : String) : Except PatternError String := do
  let items ← Postfix.ofPattern? pattern
  let text ← Id.run (construction.build pattern items)
  pure (String.ofList text)

end Conventional

end PatternAutomata
