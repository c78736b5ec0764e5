import PatternAutomata.Regex
import PatternAutomata.Text

namespace PatternAutomata

namespace Regex

def maxNesting : Nat := 250

structure Span where
  start : Nat
  length : Nat
deriving DecidableEq

/-- What an expression is a direct part of. -/
inductive Surrounding
  | sequence
  | choice
  | other
deriving DecidableEq

def width : Regex → Nat
  | empty => 0
  | literal c => (escape c).length
  | range first last => (escape first).length + (escape last).length + 3
  | group r => r.width + 4
  | seq r s => r.width + s.width
  | alt r s => r.width + s.width + 1
  | star r | plus r | optional r => r.width + 1

def enter (depth : Nat) (construct : Span) : Except Span Nat :=
  if depth < maxNesting then .ok (depth + 1) else .error construct

/-- Where the text of an expression ends that begins at `start` inside `depth` constructs, or the first
construct in it that is too deep. Parts of a part of the same kind are parts of the whole. -/
def stop (surrounding : Surrounding) (depth start : Nat) (r : Regex) : Except Span Nat :=
  match r with
  | empty => .ok start
  | literal c => .ok (start + (escape c).length)
  | range _ _ => (enter depth ⟨start, r.width⟩).map fun _ => start + r.width
  | group s => do
    let inner ← enter depth ⟨start, r.width⟩
    let position ← s.stop .other inner (start + 3)
    pure (position + 1)
  | seq s t => do
    let inner ← if surrounding = .sequence then pure depth else enter depth ⟨start, r.width⟩
    let position ← s.stop .sequence inner start
    t.stop .sequence inner position
  | alt s t => do
    let inner ← if surrounding = .choice then pure depth else enter depth ⟨start, r.width⟩
    let position ← s.stop .choice inner start
    t.stop .choice inner (position + 1)
  | star s | plus s | optional s => do
    let inner ← enter depth ⟨start, r.width⟩
    let position ← s.stop .other inner start
    pure (position + 1)

def anchored (text : List Char) : List Char := "^(?:".toList ++ text ++ ")$".toList

/-- The first construct that is too deep, by its place in the anchored text. There an expression stands in
a group, and that in a sequence with the anchors. -/
def tooDeep? (r : Regex) : Option Span :=
  match r.stop .other 2 "^(?:".length with
  | .ok _ => none
  | .error construct => some construct

/-- A refused text, and the construct in it that is too deep. -/
structure Refusal where
  text : List Char
  construct : Span
deriving DecidableEq

namespace Refusal

def place (text : List Char) (index : Nat) : Nat × Nat :=
  let before := text.take index
  (before.count '\n', (before.reverse.takeWhile (· != '\n')).length)

def blanks (count : Nat) : String := String.ofList (List.replicate count ' ')

/-- The lines of a text, each after what stands in its margin, with `mark` below the line `marked`. -/
def notated (lines : List (List Char)) (marked : Option Nat) (mark : String) : String :=
  let digits := (toString lines.length).length
  let margin (index : Nat) :=
    if lines.length ≤ 1 then blanks 4
    else
      let number := toString (index + 1)
      blanks (digits - number.length) ++ number ++ ": "
  let line (l : List Char × Nat) :=
    margin l.2 ++ String.ofList l.1 ++ "\n" ++
      (if marked = some l.2 then blanks (margin l.2).length ++ mark ++ "\n" else "")
  String.join (lines.zipIdx.map line)

/-- The text with the construct marked in it, or named by its ends if it takes more than one line. -/
def message (e : Refusal) : String :=
  let (line, column) := place e.text e.construct.start
  let (lastLine, lastColumn) := place e.text (e.construct.start + e.construct.length)
  let lines := Text.lines e.text
  let mark := blanks column ++ String.ofList (List.replicate (max 1 e.construct.length) '^')
  let rule := if lines.length ≤ 1 then "" else String.ofList (List.replicate 79 '~') ++ "\n"
  let ends :=
    if line = lastLine then ""
    else
      s!"on line {line + 1} (column {column + 1}) through line {lastLine + 1} (column {lastColumn})\n"
  "regex parse error:\n" ++ rule ++
    notated lines (if line = lastLine then some line else none) mark ++ rule ++ ends ++
    s!"error: exceed the maximum number of nested parentheses/brackets ({maxNesting})"

end Refusal

end Regex

end PatternAutomata
