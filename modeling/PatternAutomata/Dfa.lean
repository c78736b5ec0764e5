import PatternAutomata.Ascending

namespace PatternAutomata

structure Dfa.State where
  name : String
  /-- The nondeterministic states that this one stands for, none in an automaton made by hand. -/
  subset : List Nat
  accepting : Bool
  /-- The successor for each character that has one, by increasing character. -/
  edges : List (Char × Nat)
deriving DecidableEq

/-- A deterministic automaton in which transitions may be missing; a missing transition rejects. -/
structure Dfa where
  states : Array Dfa.State
  start : Nat
deriving DecidableEq

namespace Dfa

def empty : Dfa := ⟨#[], 0⟩

def size (d : Dfa) : Nat := d.states.size

/-- The name given to the state at `index`: names count from 1. -/
def nameAt (index : Nat) : String := "S" ++ toString (index + 1)

def startName? (d : Dfa) : Option String := d.states[d.start]?.map (·.name)

def indexOf? (d : Dfa) (name : String) : Option Nat := d.states.findIdx? (·.name == name)

def acceptingNames (d : Dfa) : List String := ascending ((d.states.toList.filter (·.accepting)).map (·.name))

def alphabet (d : Dfa) : List Char := ascending (d.states.toList.flatMap fun s => s.edges.map Prod.fst)

def transition? (d : Dfa) (state : Nat) (c : Char) : Option Nat :=
  d.states[state]?.bind fun s => s.edges.lookup c

/-- The state that a word leads to, unless it meets a missing transition. -/
def walk? (d : Dfa) (state : Nat) : List Char → Option Nat
  | [] => some state
  | c :: rest => (d.transition? state c).bind fun next => d.walk? next rest

def isAccepting (d : Dfa) (state : Nat) : Bool := d.states[state]?.any (·.accepting)

def accepts (d : Dfa) (word : List Char) : Bool := (d.walk? d.start word).any d.isAccepting

structure NamedEdge where
  source : String
  symbol : Char
  target : String
deriving DecidableEq

/-- The automaton of named edges. States are numbered by first mention: the start, the ends of the
edges, the accepting states. Of two edges for one state and character the later one counts. -/
def ofEdges (start : String) (accepting : List String) (edges : List NamedEdge) : Dfa :=
  let names := (start :: edges.flatMap (fun e => [e.source, e.target]) ++ accepting).eraseDups
  let edgesOf (name : String) :=
    let own := edges.filter (·.source == name)
    (ascending (own.map (·.symbol))).filterMap fun c =>
      (own.reverse.find? (·.symbol == c)).map fun e => (c, names.idxOf e.target)
  ⟨(names.map fun name => ⟨name, [], accepting.contains name, edgesOf name⟩).toArray, 0⟩

end Dfa

end PatternAutomata
