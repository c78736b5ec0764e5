import PatternAutomata.Config
import PatternAutomata.Disagreement
import PatternAutomata.Stages
import PatternAutomata.Table.Export
import PatternAutomata.Table
import PatternAutomata.Table.Record

namespace PatternAutomata

inductive Failure
  | rejected (e : PatternError)
  | creating (dir : Path) (e : FileError)
  | writing (file : Path) (e : FileError)
  | reading (file : Path) (e : FileError)
  | badRecord (file : Path) (e : RecordError)
  | refused (pattern : String) (text : List Char) (e : Regex.Refusal)

namespace Failure

def message (pattern : String) (f : Failure) : String :=
  let line (context : String) (cause : String) := s!"{Text.quoted pattern}: {context}: {cause}"
  match f with
  | rejected e => s!"rejected pattern {Text.quoted e.pattern}: {e.message}"
  | creating dir e => line s!"failed to create '{dir.text}'" e.message
  | writing file e => line s!"failed to write '{file.text}'" e.message
  | reading file e => line s!"failed to read '{file.text}'" e.message
  | badRecord file e => line s!"invalid record '{file.text}'" e.message
  | refused pattern text e => line (refusalLine pattern text) e.message

def ofCheck : CheckError → Failure
  | .rejected e => rejected e
  | .refused pattern text e => refused pattern text e

end Failure

structure Report where
  pattern : String
  nfaStates : Nat
  dfaStates : Nat
  minimalStates : Nat
  passed : Bool
deriving DecidableEq

namespace Report

def padRight (width : Nat) (s : String) : String := s ++ String.ofList (List.replicate (width - s.length) ' ')

def padLeft (width : Nat) (s : String) : String := String.ofList (List.replicate (width - s.length) ' ') ++ s

def columns (a b c d : String) : String :=
  " ".intercalate [padRight 48 a, padLeft 6 b, padLeft 6 c, padLeft 6 d]

def header : String := columns "pattern" "NFA" "DFA" "min" ++ "\n"

def line (r : Report) : String :=
  columns r.pattern (toString r.nfaStates) (toString r.dfaStates) (toString r.minimalStates) ++
    (if r.passed then "" else "  FAILED") ++ "\n"

end Report

namespace Batch

variable {m : Type → Type} [Monad m]

def attempt {α : Type} (wrap : FileError → Failure) (act : m (Except FileError α)) : ExceptT Failure m α :=
  ExceptT.mk do
    let r ← act
    pure (r.mapError wrap)

def writeTable (w : Workspace m) (dir : Path) (name : String) (t : Table) : ExceptT Failure m Unit := do
  let json := dir.join (.ofString (name ++ ".json"))
  attempt (.writing json) (w.write json t.toJson)
  let dot := dir.join (.ofString (name ++ ".dot"))
  attempt (.writing dot) (w.write dot t.toDot)

def verdict (label : String) (passed : Bool) (pattern : String) : String :=
  "[" ++ label ++ "][" ++ (if passed then "PASS" else "FAIL") ++ "] " ++ pattern ++ "\n"

/-- Compares a table with the record of the same name below `dir`; where there is none, it passes. -/
def checkAgainst (w : Workspace m) (dir : Path) (label name : String) (t : Table) (pattern : String) :
    ExceptT Failure m Bool := do
  let file := dir.join (.ofString (name ++ ".json"))
  if ← w.isPresent file then
    let text ← attempt (.reading file) (w.read file)
    match Table.ofJson? text with
    | .error e => throw (.badRecord file e)
    | .ok reference =>
      let passed := t.equivalent reference
      w.print (verdict label passed pattern)
      pure passed
  else pure true

def process (w : Workspace m) (c : Config) (pattern : String) : ExceptT Failure m Report := do
  match compile pattern with
  | .error e => throw (.rejected e)
  | .ok stages =>
    let folder := Path.ofString (folderName pattern)
    let dir := c.out.join folder
    attempt (.creating dir) (w.createDirs dir)
    let nfa := stages.nfa.table
    let dfa := stages.dfa.table
    let minimal := stages.minimal.dfa.table
    writeTable w dir "nfa" nfa
    writeTable w dir "dfa" dfa
    writeTable w dir "minimized_dfa" minimal
    let matches? ← match c.expected with
      | none => pure true
      | some expected => do
        let dir := expected.join folder
        let first ← checkAgainst w dir "NFA" "nfa" nfa pattern
        let second ← checkAgainst w dir "DFA" "minimized_dfa" minimal pattern
        pure (first && second)
    let agrees ← if c.verify then
        match disagreements pattern stages.minimal.dfa with
        | .error e => throw (.ofCheck e)
        | .ok words => do
          w.print (verdict "ORACLE" words.isEmpty pattern)
          pure words.isEmpty
      else pure true
    pure ⟨pattern, nfa.size, dfa.size, minimal.size, matches? && agrees⟩

/-- Processes patterns one after the other; `none` stands for one that failed. -/
def processAll (w : Workspace m) (c : Config) : List String → m (List (Option Report))
  | [] => pure []
  | pattern :: rest => do
    let r ← (process w c pattern).run
    let later ← processAll w c rest
    pure (r.toOption :: later)

/-- How a run ends: a status, and what it says if it is not well. -/
structure Outcome where
  status : Nat
  complaint : String
deriving DecidableEq

namespace Outcome

def success : Outcome := ⟨0, ""⟩

def failure (message : String) (cause : Option FileError) : Outcome :=
  match cause with
  | none => ⟨1, "Error: " ++ message ++ "\n"⟩
  | some e => ⟨1, "Error: " ++ message ++ "\n\nCaused by:\n    " ++ e.message ++ "\n"⟩

end Outcome

def runConfig (w : Workspace m) (c : Config) : m Outcome := do
  match ← w.createDirs c.out with
  | .error e => pure (.failure s!"failed to create output directory '{c.out.text}'" (some e))
  | .ok () =>
    let results ← processAll w c c.patterns
    let reports := results.filterMap id
    w.print Report.header
    w.print (String.join (reports.map Report.line))
    let failed := results.countP fun r => !r.any (·.passed)
    if failed = 0 then pure .success
    else pure (.failure s!"{failed} of {c.patterns.length} patterns failed" none)

def run (w : Workspace m) (args : List String) : m Outcome := do
  match ← Config.load w args with
  | .error e => pure (.failure e.message e.cause?)
  | .ok c => runConfig w c

end Batch

end PatternAutomata
