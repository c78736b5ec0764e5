import PatternAutomata.Error
import PatternAutomata.Nfa
import PatternAutomata.Pattern.Construction

namespace PatternAutomata

/-- A part of an automaton that is entered and left at one state each. -/
structure Fragment where
  entry : Nat
  exit : Nat
deriving DecidableEq

/-- The states made so far, with ids from `firstId` on. States are added at the end, and keep their ids. -/
structure Arena where
  firstId : Nat
  states : Array Nfa.State

namespace Arena

def empty (firstId : Nat) : Arena := ⟨firstId, #[]⟩

structure Edge where
  source : Nat
  label : Label
  target : Nat

def connect (a : Arena) (e : Edge) : Arena :=
  { a with states := a.states.modify (e.source - a.firstId) fun s => { s with edges := s.edges.push e.label e.target } }

/-- Two new states, which keep the ids that they get, and the edges drawn with them. -/
def enclose (edges : Nat → Nat → List Edge) : StateM Arena Fragment := fun a =>
  let entry := a.firstId + a.states.size
  let exit := entry + 1
  (⟨entry, exit⟩, (edges entry exit).foldl connect
    { a with states := (a.states.push ⟨entry, .empty⟩).push ⟨exit, .empty⟩ })

def character (c : Char) : StateM Arena Fragment :=
  enclose fun entry exit => [⟨entry, .char c, exit⟩]

def repetition (r : Repetition) (inner : Fragment) : StateM Arena Fragment :=
  enclose fun entry exit =>
    match r with
    | .star =>
      [⟨entry, .empty, inner.entry⟩, ⟨entry, .empty, exit⟩, ⟨inner.exit, .empty, entry⟩, ⟨inner.exit, .empty, exit⟩]
    | .plus => [⟨entry, .empty, inner.entry⟩, ⟨inner.exit, .empty, entry⟩, ⟨inner.exit, .empty, exit⟩]
    | .optional => [⟨entry, .empty, inner.entry⟩, ⟨entry, .empty, exit⟩, ⟨inner.exit, .empty, exit⟩]

def alternate (left right : Fragment) : StateM Arena Fragment :=
  enclose fun entry exit =>
    [⟨entry, .empty, left.entry⟩, ⟨entry, .empty, right.entry⟩, ⟨left.exit, .empty, exit⟩, ⟨right.exit, .empty, exit⟩]

def concat (left right : Fragment) : StateM Arena Fragment := fun a =>
  (⟨left.entry, right.exit⟩, a.connect ⟨left.exit, .empty, right.entry⟩)

/-- A range is its first character, and each further one as an alternative to all before it. -/
def operand : Operand → StateM Arena Fragment
  | .char c => character c
  | .range first last => do
    let f ← character first
    ((charsBetween first last).drop 1).foldlM (fun f c => do alternate f (← character c)) f

def construction : Construction (StateM Arena) Fragment where
  operand := operand
  repetition := repetition
  junction
    | .concat => concat
    | .alternate => alternate

def idLimit : Nat := 0x10000000000000000

def overflows (a : Arena) : Bool := idLimit < a.firstId + a.states.size

def toNfa (a : Arena) (f : Fragment) : Nfa := ⟨a.firstId, a.states, f.entry, f.exit⟩

/-- The automaton of a postfix sequence, built after what the arena holds, and the arena after that. -/
def build (a : Arena) (pattern : String) (items : List Postfix) : Except PatternError Nfa × Arena :=
  let (r, a) := construction.build pattern items a
  (r.map a.toNfa, a)

end Arena

namespace Nfa

/-- The automaton of a postfix sequence after what the arena holds, unless ids run out on the way. -/
def ofPostfix? (a : Arena) (pattern : String) (items : List Postfix) : Except Fault (Except PatternError Nfa) :=
  let (r, a) := a.build pattern items
  if a.overflows then .error .idOverflow else .ok r

def ofPatternAt? (firstId : Nat) (pattern : String) : Except Fault (Except PatternError Nfa) :=
  match Postfix.ofPattern? pattern with
  | .error e => .ok (.error e)
  | .ok items => ofPostfix? (.empty firstId) pattern items

def ofPattern? (pattern : String) : Except PatternError Nfa := do
  let items ← Postfix.ofPattern? pattern
  ((Arena.empty 0).build pattern items).1

end Nfa

end PatternAutomata
