import PatternAutomata.Dfa
import PatternAutomata.Dfa.Minimal
import PatternAutomata.Nfa
import PatternAutomata.Nfa.Fragment
import PatternAutomata.Numbering

namespace PatternAutomata

namespace Nfa

def moves (n : Nfa) (ids : List Nat) : List (Char × List Nat) :=
  let symbols := ids.flatMap fun i => ((n.state? i).map fun s => s.edges.keys.filterMap Label.char?).getD []
  (ascending symbols).map fun c => (c, n.step ids c)

def subsets (n : Nfa) : Expansion (fun ids : List Nat => ids) Char :=
  Expansion.ofRoots (fun ids => ids) n.moves (Nat.pow 2 n.size) [n.closure [n.start]]

/-- The subset construction. States are numbered and named in order of discovery. -/
def toDfa (n : Nfa) : Dfa :=
  let reached := n.subsets
  let state (index : Nat) (ids : List Nat) (edges : List (Char × Nat)) : Dfa.State :=
    ⟨Dfa.nameAt index, ids, ids.contains n.terminal, edges⟩
  ⟨reached.found.values.mapIdx fun i ids => state i ids (reached.rows[i]?.getD []), 0⟩

end Nfa

structure Stages where
  nfa : Nfa
  dfa : Dfa
  minimal : Minimal

def Stages.ofNfa (n : Nfa) : Stages :=
  let d := n.toDfa
  ⟨n, d, d.minimize⟩

def compile (pattern : String) : Except PatternError Stages := (Nfa.ofPattern? pattern).map .ofNfa

end PatternAutomata
