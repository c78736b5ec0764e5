import PatternAutomata.Dfa
import PatternAutomata.Text.CodePoint

namespace PatternAutomata

/-- A deterministic automaton as flat tables over code points, run on the bytes of a string. -/
structure Matcher where
  start : Nat
  accepting : Array Bool
  /-- For each state, the code points that lead on and where to; the first entry for one counts. -/
  rows : Array (List (Nat × Nat))
deriving DecidableEq

namespace Matcher

def ofDfa (d : Dfa) : Matcher where
  start := d.start
  accepting := d.states.map (·.accepting)
  rows := d.states.map fun s => s.edges.map fun e => (e.1.toNat, e.2)

def walk (m : Matcher) (state : Nat) : List Nat → Except Fault Bool
  | [] =>
    match m.accepting[state]? with
    | some b => .ok b
    | none => .error (.indexOutOfRange m.accepting.size state)
  | c :: rest =>
    match m.rows[state]? with
    | none => .error (.indexOutOfRange m.rows.size state)
    | some row =>
      match row.lookup c with
      | some next => m.walk next rest
      | none => .ok false

def test (m : Matcher) (s : String) : Except Fault Bool := do
  let points ← Text.codePoints s
  m.walk m.start points

def commas (items : List String) : String := " , ".intercalate items

def rowSource (row : List (Nat × Nat)) : String :=
  "& [" ++ commas (row.map fun e => "(" ++ toString e.1 ++ "u32 , " ++ toString e.2 ++ "usize)") ++ "]"

/-- A block of source text whose value is the matcher. -/
def source (m : Matcher) : String :=
  let count := toString m.rows.size ++ "usize"
  "\x7b struct Matcher ; impl Matcher \x7b const START : usize = " ++ toString m.start ++ "usize ; " ++
    "const ACCEPTING : [bool ; " ++ count ++ "] = [" ++
    commas (m.accepting.toList.map fun b => if b then "true" else "false") ++ "] ; " ++
    "const TRANSITIONS : [& 'static [(u32 , usize)] ; " ++ count ++ "] = [" ++
    commas (m.rows.toList.map rowSource) ++ "] ; " ++
    "pub const fn test (& self , s : & str) -> bool \x7b min_dfa_util :: run_table (s , Self :: START , " ++
    "& Self :: ACCEPTING , & Self :: TRANSITIONS) \x7d \x7d Matcher \x7d"

end Matcher

end PatternAutomata
