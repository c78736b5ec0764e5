import PatternAutomata.Text
import PatternAutomata.Workspace

namespace PatternAutomata

def usage : String :=
  "usage: min_dfa [--out DIR] [--expected DIR] [--worklist FILE] [--verify] [PATTERN...]"

def defaultPatterns : List String :=
  ["(a|b)*abb", "(N|[oO]h?)[a-z]*(g[.]?r[.]?e[.]?a[.]?t)[a-z]*", "[a-zA-Z]+[0-9]?", "[a-zA-Z0-9]+",
   "[a-zA-Z0-9]+2[a-zA-Z]+.[a-zA-Z]+", "[Gg]et[Rr]ick[Rr]olled", "[Oo]sama+", "a", "a*", "a?(a+b)*b",
   "a|b", "ab", "ab|cd", "ab|cd|ef", "S[kK][iI][bB][iI][dD][iI]", "TheBoysWishesUEidMubarak"]

/-- What the arguments say, before any file is read. -/
structure Arguments where
  out : Path
  expected : Option Path
  worklist : Option Path
  verify : Bool
  patterns : List String
deriving DecidableEq

inductive ConfigError
  | missingValue (flag : String)
  | unknownOption (flag : String)
  | unreadableWorklist (file : Path) (cause : FileError)
deriving DecidableEq

namespace ConfigError

def message : ConfigError → String
  | missingValue flag => s!"`{flag}` needs a value\n{usage}"
  | unknownOption flag => s!"unknown option `{flag}`\n{usage}"
  | unreadableWorklist file _ => s!"failed to read worklist '{file.text}'"

def cause? : ConfigError → Option FileError
  | unreadableWorklist _ cause => some cause
  | _ => none

end ConfigError

namespace Arguments

def initial : Arguments := ⟨.ofString "output", none, none, false, []⟩

/-- Spelled like an option: two hyphens, then letters and digits only. -/
def isOption (arg : String) : Bool :=
  match arg.toList with
  | '-' :: '-' :: rest => rest.all Char.isAlphanum
  | _ => false

/-- The options that take the next argument as their value, whatever it looks like. -/
def setter? (flag : String) : Option (Arguments → String → Arguments) :=
  if flag = "--out" then some fun a v => { a with out := .ofString v }
  else if flag = "--expected" then some fun a v => { a with expected := some (.ofString v) }
  else if flag = "--worklist" then some fun a v => { a with worklist := some (.ofString v) }
  else none

/-- Reads arguments from left to right; later options overrule earlier ones. -/
def read (a : Arguments) : List String → Except ConfigError Arguments
  | [] => .ok a
  | [arg] =>
    if arg = "--verify" then .ok { a with verify := true }
    else if (setter? arg).isSome then .error (.missingValue arg)
    else if isOption arg then .error (.unknownOption arg)
    else .ok { a with patterns := a.patterns ++ [arg] }
  | arg :: next :: rest =>
    if arg = "--verify" then read { a with verify := true } (next :: rest)
    else
      match setter? arg with
      | some set => read (set a next) rest
      | none =>
        if isOption arg then .error (.unknownOption arg)
        else read { a with patterns := a.patterns ++ [arg] } (next :: rest)

end Arguments

/-- The patterns of a worklist: one a line, without blanks around it; empty lines and lines that begin
with `#` do not count. -/
def worklistPatterns (text : String) : List String :=
  let lines := (Text.lines text.toList).map Text.trim
  (lines.filter fun line => !line.isEmpty && line.head? != some '#').map String.ofList

def folderName (pattern : String) : String :=
  pattern.map fun c => if c = '*' || c = '|' || c = '?' then '_' else c

structure Config where
  out : Path
  expected : Option Path
  verify : Bool
  patterns : List String
deriving DecidableEq

namespace Config

/-- The patterns given and those of the worklist, or the default ones if there are none at all. -/
def ofArguments (a : Arguments) (worklist : List String) : Config :=
  let patterns := a.patterns ++ worklist
  ⟨a.out, a.expected, a.verify, if patterns.isEmpty then defaultPatterns else patterns⟩

def load {m : Type → Type} [Monad m] (w : Workspace m) (args : List String) : m (Except ConfigError Config) := do
  match Arguments.initial.read args with
  | .error e => pure (.error e)
  | .ok a =>
    match a.worklist with
    | none => pure (.ok (ofArguments a []))
    | some file =>
      match ← w.read file with
      | .error e => pure (.error (.unreadableWorklist file e))
      | .ok text => pure (.ok (ofArguments a (worklistPatterns text)))

end Config

end PatternAutomata
