import PatternAutomata.Json
import PatternAutomata.Json.Lexeme
import PatternAutomata.Listing

namespace PatternAutomata.Json

/-- An array or object that is not closed yet. -/
inductive Frame
  /-- Items latest first. -/
  | array (items : List Json)
  | object (fields : Listing String Json)
  /-- An object that waits for the value of `key`. -/
  | field (fields : Listing String Json) (key : String)

inductive Expected
  | value
  | valueOrClose
  | keyOrClose
  | key
  | colon
  | separator
  | nothing (result : Json)

structure Reading where
  stack : List Frame
  expected : Expected

namespace Reading

def maxDepth : Nat := 127

def put (v : Json) : List Frame → Option Reading
  | [] => some ⟨[], .nothing v⟩
  | .array items :: stack => some ⟨.array (v :: items) :: stack, .separator⟩
  | .field fields key :: stack => some ⟨.object (fields.insert key v) :: stack, .separator⟩
  | .object _ :: _ => none

def enter (f : Frame) (expected : Expected) (stack : List Frame) : Option Reading :=
  if stack.length < maxDepth then some ⟨f :: stack, expected⟩ else none

def begin (l : Lexeme) (stack : List Frame) : Option Reading :=
  match l with
  | .openArray => enter (.array []) .valueOrClose stack
  | .openObject => enter (.object .empty) .keyOrClose stack
  | .word .null => put .null stack
  | .word .true => put (.bool true) stack
  | .word .false => put (.bool false) stack
  | .number digits => put (.number digits) stack
  | .string s => put (.string s) stack
  | .closeArray | .closeObject | .comma | .colon => none

def close (l : Lexeme) : List Frame → Option Reading
  | .array items :: stack => if l = .closeArray then put (.array items.reverse) stack else none
  | .object fields :: stack => if l = .closeObject then put (.object fields.entries) stack else none
  | _ => none

def step (r : Reading) (l : Lexeme) : Option Reading :=
  match r.expected with
  | .value => begin l r.stack
  | .valueOrClose => if l = .closeArray then close l r.stack else begin l r.stack
  | .keyOrClose =>
    match l, r.stack with
    | .string key, .object fields :: stack => some ⟨.field fields key :: stack, .colon⟩
    | l, stack => close l stack
  | .key =>
    match l, r.stack with
    | .string key, .object fields :: stack => some ⟨.field fields key :: stack, .colon⟩
    | _, _ => none
  | .colon => if l = .colon then some ⟨r.stack, .value⟩ else none
  | .separator =>
    match l, r.stack with
    | .comma, .array _ :: _ => some ⟨r.stack, .value⟩
    | .comma, .object _ :: _ => some ⟨r.stack, .key⟩
    | l, stack => close l stack
  | .nothing _ => none

end Reading

/-- The value of a JSON text. A key that comes twice in one object keeps its first place and takes its last value. -/
def ofText? (text : String) : Option Json := do
  let lexemes ← Lexeme.lex text.toList
  match ← lexemes.foldlM Reading.step ⟨[], .value⟩ with
  | ⟨[], .nothing v⟩ => some v
  | _ => none

end PatternAutomata.Json
