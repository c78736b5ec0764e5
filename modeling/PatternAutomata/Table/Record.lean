import PatternAutomata.Json.Reader
import PatternAutomata.Table
import PatternAutomata.Text

namespace PatternAutomata

inductive RecordError
  | invalidJson
  | notAnObject
  | missingStart
  | invalidState (state : String)
  | invalidTarget (state symbol : String)
deriving DecidableEq

def RecordError.message : RecordError → String
  | invalidJson => "invalid JSON"
  | notAnObject => "record is not a JSON object"
  | missingStart => "record has no string `startingState`"
  | invalidState state => s!"state {Text.quoted state} is not an object with a boolean `isTerminatingState`"
  | invalidTarget state symbol =>
    s!"transition of state {Text.quoted state} on {Text.quoted symbol} is neither a state name nor a list of names"

namespace Record

def startKey : String := "startingState"

def acceptingKey : String := "isTerminatingState"

def ofTargets : Targets → Json
  | .one name => .string name
  | .many names => .array (names.map .string)

def ofState (s : Table.State) : Json :=
  .object ((acceptingKey, .bool s.accepting) :: s.moves.entries.map fun m => (m.1, ofTargets m.2))

/-- An object that names the start and holds an object for each state; in that one key tells acceptance, the others are
symbols. -/
def ofTable (t : Table) : Json :=
  .object ((startKey, .string t.start) :: t.states.entries.map fun e => (e.1, ofState e.2))

def name? : Json → Option String
  | .string s => some s
  | _ => none

def targets? : Json → Option Targets
  | .string name => some (.one name)
  | .array items => (items.mapM name?).map .many
  | _ => none

def moves? (state : String) (fields : List (String × Json)) : Except RecordError (List (String × Targets)) :=
  (fields.filter (·.1 != acceptingKey)).mapM fun f =>
    match targets? f.2 with
    | some targets => .ok (f.1, targets)
    | none => .error (.invalidTarget state f.1)

/-- Whether a state accepts: not if nothing is said. -/
def accepting? (fields : List (String × Json)) : Option Bool :=
  match fields.lookup acceptingKey with
  | none => some false
  | some (.bool b) => some b
  | some _ => none

def addState (t : Table) (entry : String × Json) : Except RecordError Table :=
  match entry.2 with
  | .object fields =>
    match accepting? fields with
    | none => .error (.invalidState entry.1)
    | some accepting => (moves? entry.1 fields).map (t.define entry.1 accepting)
  | _ => .error (.invalidState entry.1)

def toTable? : Json → Except RecordError Table
  | .object fields =>
    match fields.lookup startKey with
    | some (.string start) => (fields.filter (·.1 != startKey)).foldlM addState (.new start)
    | _ => .error .missingStart
  | _ => .error .notAnObject

end Record

namespace Table

def toJson (t : Table) : String := (Record.ofTable t).pretty

def ofJson? (text : String) : Except RecordError Table :=
  match Json.ofText? text with
  | none => .error .invalidJson
  | some v => Record.toTable? v

end Table

end PatternAutomata
