namespace PatternAutomata

/-- A JSON value. Numbers are kept as written, fields in the order written. -/
inductive Json
  | null
  | bool (b : Bool)
  | number (digits : List Char)
  | string (s : String)
  | array (items : List Json)
  | object (fields : List (String × Json))

namespace Json

def hex4 (n : Nat) : List Char := [n / 4096, n / 256, n / 16, n].map fun m => Nat.digitChar (m % 16)

def escape (c : Char) : List Char :=
  match c with
  | '\x22' => ['\\', '\x22']
  | '\\' => ['\\', '\\']
  | '\x08' => ['\\', 'b']
  | '\x0c' => ['\\', 'f']
  | '\n' => ['\\', 'n']
  | '\r' => ['\\', 'r']
  | '\t' => ['\\', 't']
  | _ => if c.toNat < 0x20 then ['\\', 'u'] ++ hex4 c.toNat else [c]

def stringChars (s : String) : List Char := ['\x22'] ++ s.toList.flatMap escape ++ ['\x22']

def newLine (depth : Nat) : List Char := '\n' :: List.replicate (2 * depth) ' '

mutual

/-- The text of a value whose enclosing line is indented by `depth` levels of two blanks; each item has a line. -/
def chars (depth : Nat) : Json → List Char
  | null => "null".toList
  | bool b => (if b then "true" else "false").toList
  | number digits => digits
  | string s => stringChars s
  | array [] => "[]".toList
  | array (v :: items) =>
    '[' :: newLine (depth + 1) ++ chars (depth + 1) v ++ itemChars (depth + 1) items ++ newLine depth ++ [']']
  | object [] => "\x7b\x7d".toList
  | object ((key, v) :: fields) =>
    '\x7b' :: newLine (depth + 1) ++ stringChars key ++ ": ".toList ++ chars (depth + 1) v ++
      fieldChars (depth + 1) fields ++ newLine depth ++ ['\x7d']

def itemChars (depth : Nat) : List Json → List Char
  | [] => []
  | v :: items => ',' :: newLine depth ++ chars depth v ++ itemChars depth items

def fieldChars (depth : Nat) : List (String × Json) → List Char
  | [] => []
  | (key, v) :: fields =>
    ',' :: newLine depth ++ stringChars key ++ ": ".toList ++ chars depth v ++ fieldChars depth fields

end

def pretty (v : Json) : String := String.ofList (chars 0 v)

end Json

end PatternAutomata
