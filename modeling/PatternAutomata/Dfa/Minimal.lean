import PatternAutomata.Dfa

namespace PatternAutomata

/-- A minimized automaton and, for each of its states, the states that it stands for. -/
structure Minimal where
  dfa : Dfa
  blocks : List (List Nat)
deriving DecidableEq

namespace Dfa

def blockIndex (size : Nat) (partition : List (List Nat)) : Array Nat :=
  partition.zipIdx.foldl (fun table block => block.1.foldl (fun table s => table.setIfInBounds s block.2) table)
    (Array.replicate size 0)

def symbolsOf (d : Dfa) (block : List Nat) : List Char :=
  ascending (block.flatMap fun s => (d.states[s]?.map fun st => st.edges.map Prod.fst).getD [])

/-- The block that each character leads to. -/
def signature (d : Dfa) (blockOf : Array Nat) (symbols : List Char) (state : Nat) : List (Option Nat) :=
  symbols.map fun c => (d.transition? state c).map fun t => blockOf[t]?.getD 0

/-- Splits a block by signature, groups in the order in which their first members come. -/
def splitBlock (d : Dfa) (blockOf : Array Nat) (block : List Nat) : List (List Nat) :=
  let symbols := d.symbolsOf block
  let signed := block.map fun s => (d.signature blockOf symbols s, s)
  (signed.map Prod.fst).eraseDups.map fun k => (signed.filter (·.1 == k)).map Prod.snd

def refine (d : Dfa) (partition : List (List Nat)) : List (List Nat) :=
  let blockOf := blockIndex d.size partition
  partition.flatMap (d.splitBlock blockOf)

/-- Refines until nothing changes, at most `rounds` times. -/
def refineAll (d : Dfa) : Nat → List (List Nat) → List (List Nat)
  | 0, partition => partition
  | rounds + 1, partition =>
    let refined := d.refine partition
    if refined = partition then partition else d.refineAll rounds refined

def firstPartition (d : Dfa) : List (List Nat) :=
  let (accepting, rejecting) := (List.range d.size).partition d.isAccepting
  [accepting, rejecting].filter fun block => !block.isEmpty

/-- The classes of states that no word tells apart, by increasing smallest member. -/
def classes (d : Dfa) : List (List Nat) :=
  (d.refineAll d.size d.firstPartition).mergeSort fun a b => a.headD 0 ≤ b.headD 0

/-- The state that stands for a block: its transitions are those of the first member. -/
def merged (d : Dfa) (blockOf : Array Nat) (index : Nat) (block : List Nat) : State where
  name := nameAt index
  subset := ascending (block.flatMap fun s => (d.states[s]?.map (·.subset)).getD [])
  accepting := block.any d.isAccepting
  edges := ((block.head?.bind (d.states[·]?)).map (·.edges)).getD [] |>.map fun e => (e.1, blockOf[e.2]?.getD 0)

/-- The minimized automaton. States that cannot be reached take part like any other; an automaton without states becomes
a single rejecting state. -/
def minimize (d : Dfa) : Minimal :=
  if d.size = 0 then ⟨⟨#[⟨nameAt 0, [], false, []⟩], 0⟩, [[]]⟩
  else
    let blocks := d.classes
    let blockOf := blockIndex d.size blocks
    ⟨⟨(blocks.mapIdx (d.merged blockOf)).toArray, blockOf[d.start]?.getD 0⟩, blocks⟩

end Dfa

namespace Minimal

def blockOf? (m : Minimal) (state : Nat) : Option Nat := m.blocks.findIdx? (·.contains state)

end Minimal

end PatternAutomata
