import PatternAutomata.Dfa
import PatternAutomata.Nfa
import PatternAutomata.Numbering
import PatternAutomata.Table

namespace PatternAutomata

namespace Nfa

def reachable (n : Nfa) : List Nat :=
  let next (i : Nat) := (((n.state? i).map fun s => s.edges.entries.flatMap Prod.snd).getD []).map fun t => ((), t)
  (Expansion.ofRoots (fun i : Nat => i) next (n.size + 1) [n.start]).found.values.toList

/-- The states that can be reached, in breadth-first order; every symbol has a list of targets. -/
def table (n : Nfa) : Table :=
  n.reachable.foldl (fun t i =>
    match n.state? i with
    | none => t
    | some s =>
      t.define (stateName i) (i == n.terminal)
        (s.edges.entries.map fun e => (String.singleton e.1.symbol, .many (e.2.map stateName))))
    (.new (stateName n.start))

end Nfa

namespace Dfa

def nameOf (d : Dfa) (state : Nat) : String := (d.states[state]?.map (·.name)).getD ""

def table (d : Dfa) : Table :=
  d.states.toList.foldl (fun t s =>
    t.define s.name s.accepting (s.edges.map fun e => (String.singleton e.1, .one (d.nameOf e.2))))
    (.new (d.nameOf d.start))

end Dfa

namespace Dot

def escape : Char → List Char
  | '\\' => ['\\', '\\']
  | '\x22' => ['\\', '\x22']
  | c => [c]

def quoted (s : String) : String := "\"" ++ String.ofList (s.toList.flatMap escape) ++ "\""

def node (name : String) (accepting : Bool) : String :=
  "    " ++ quoted name ++ " [shape=" ++ (if accepting then "doublecircle" else "circle") ++ "];\n"

def edge (source target symbol : String) : String :=
  "    " ++ quoted source ++ " -> " ++ quoted target ++ " [label=" ++ quoted symbol ++ "];\n"

end Dot

namespace Table

def toDot (t : Table) : String :=
  "digraph \x7b\n    rankdir=LR;\n    __start [shape=none, label=\"\"];\n" ++
    String.join (t.states.entries.map fun e => Dot.node e.1 e.2.accepting) ++
    "    __start -> " ++ Dot.quoted t.start ++ ";\n" ++
    String.join (t.edges.map fun e => Dot.edge e.1 e.2.1 e.2.2) ++ "\x7d\n"

end Table

end PatternAutomata
