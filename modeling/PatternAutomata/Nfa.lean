import PatternAutomata.Ascending
import PatternAutomata.Listing
import PatternAutomata.Pattern.Syntax

namespace PatternAutomata

inductive Label
  | empty
  | char (c : Char)
deriving DecidableEq

namespace Label

/-- The character that stands for the label in texts; `epsilon` is also the text of an empty move. -/
def symbol : Label → Char
  | empty => epsilon
  | char c => c

def char? : Label → Option Char
  | empty => none
  | char c => some c

end Label

def stateName (id : Nat) : String := "S" ++ toString id

def subsetName (ids : List Nat) : String := "_".intercalate (ids.map stateName)

/-- A state with its own id and the edges out of it, by label in the order in which the labels came up. -/
structure Nfa.State where
  id : Nat
  edges : Listing Label (List Nat)

structure Nfa where
  firstId : Nat
  states : Array Nfa.State
  start : Nat
  terminal : Nat

namespace Nfa

def size (n : Nfa) : Nat := n.states.size

/-- The state at the place of this id. -/
def state? (n : Nfa) (id : Nat) : Option State := if n.firstId ≤ id then n.states[id - n.firstId]? else none

def targets (n : Nfa) (id : Nat) (label : Label) : List Nat :=
  ((n.state? id).bind (·.edges.get? label)).getD []

def alphabet (n : Nfa) : List Char :=
  ascending (n.states.toList.flatMap fun s => s.edges.keys.filterMap Label.char?)

def emptyMoveCount (n : Nfa) : Nat :=
  (List.range n.size).foldl (fun count i => count + (n.targets (n.firstId + i) .empty).length) 0

/-- A search along empty moves: the ids that wait to be visited, the next one first, and those that have been. -/
structure Search where
  waiting : List Nat
  visited : Std.TreeSet Nat

namespace Search

/-- The last of the given ids is the first to be visited. -/
def start (ids : List Nat) : Search := ⟨ids.reverse, ∅⟩

def fresh (n : Nfa) (visited : Std.TreeSet Nat) (i : Nat) : List Nat :=
  ((n.targets i .empty).filter fun t => !visited.contains t).reverse

/-- Takes the next id from those that wait. One that has been visited already is passed over. -/
def next? (n : Nfa) (s : Search) : Option Search :=
  match s.waiting with
  | [] => none
  | i :: rest =>
    if s.visited.contains i then some ⟨rest, s.visited⟩
    else
      let visited := s.visited.insert i
      some ⟨fresh n visited i ++ rest, visited⟩

/-- Goes on until nothing waits, for at most `bound` ids. -/
def run (n : Nfa) : Nat → Search → Search
  | 0, s => s
  | bound + 1, s =>
    match s.next? n with
    | none => s
    | some s => run n bound s

end Search

/-- Depth-first search from the given ids. Each of them is taken once, and so is an id for each empty move at most. -/
def search (n : Nfa) (ids : List Nat) : Search := (Search.start ids).run n (ids.length + n.emptyMoveCount)

/-- The given states and all that empty moves lead to from them. Ids of no state stay members. -/
def closure (n : Nfa) (ids : List Nat) : List Nat := (n.search ids).visited.toList

def step (n : Nfa) (ids : List Nat) (c : Char) : List Nat :=
  n.closure (ids.flatMap fun i => n.targets i (.char c))

def reach (n : Nfa) (word : List Char) : List Nat := word.foldl n.step (n.closure [n.start])

def accepts (n : Nfa) (word : List Char) : Bool := (n.reach word).contains n.terminal

/-- One line for the ends, then every state with its edges. -/
def description (n : Nfa) : String :=
  let edgeLines (e : Label × List Nat) :=
    e.2.map fun t => "    " ++ String.singleton e.1.symbol ++ " -> " ++ stateName t ++ "\n"
  let stateLines (s : State) := (stateName s.id ++ ":\n") :: s.edges.entries.flatMap edgeLines
  "start: " ++ stateName n.start ++ ", terminal: " ++ stateName n.terminal ++ "\n" ++
    String.join (n.states.toList.flatMap stateLines)

end Nfa

end PatternAutomata
