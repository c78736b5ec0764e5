import PatternAutomata.Listing
import PatternAutomata.Path

namespace PatternAutomata

inductive FileError
  | notFound
  | alreadyExists
  | notDirectory
  | isDirectory
  | nameTooLong
  | nulInName
  /-- An error of a machine that no file tree has, in its own words. -/
  | other (text : String)
deriving DecidableEq

def FileError.message : FileError → String
  | notFound => "No such file or directory (os error 2)"
  | alreadyExists => "File exists (os error 17)"
  | notDirectory => "Not a directory (os error 20)"
  | isDirectory => "Is a directory (os error 21)"
  | nameTooLong => "File name too long (os error 36)"
  | nulInName => "file name contained an unexpected NUL byte"
  | other text => text

inductive Entry
  | directory
  | file (content : String)
deriving DecidableEq

/-- The names from the root down. -/
abbrev Location := List Name

/-- Directories and text files by their place below the root. There are no links, neither symbolic nor hard, so `..` is
the directory above by name. Operations answer like those of an operating system. -/
structure FileTree where
  entries : Listing Location Entry
  /-- Where relative paths begin. -/
  current : Location
deriving DecidableEq

namespace FileTree

def bare (current : Location) : FileTree :=
  ⟨.ofList ((List.range current.length).map fun n => (current.take (n + 1), .directory)), current⟩

def entry? (t : FileTree) (l : Location) : Option Entry :=
  if l.isEmpty then some .directory else t.entries.get? l

def set (t : FileTree) (l : Location) (e : Entry) : FileTree := { t with entries := t.entries.insert l e }

/-- The longest name and the longest path, in bytes. -/
def maxName : Nat := 255

def maxPath : Nat := 4095

/-- Follows names from a location. Only a directory can be followed further. -/
def follow (t : FileTree) (l : Location) : List Name → Except FileError Location
  | [] => .ok l
  | name :: rest =>
    if t.entry? l ≠ some .directory then .error .notDirectory
    else if name = Path.here then t.follow l rest
    else if name = Path.up then t.follow l.dropLast rest
    else if maxName < Path.byteLength name then .error .nameTooLong
    else if (t.entry? (l ++ [name])).isNone then .error .notFound
    else t.follow (l ++ [name]) rest

/-- What no operation accepts, whatever the tree holds. -/
def refusal? (p : Path) : Option FileError :=
  if p.chars.contains '\x00' then some .nulInName
  else if p.chars.isEmpty then some .notFound
  else if maxPath < Path.byteLength p.chars then some .nameTooLong
  else none

def origin (t : FileTree) (p : Path) : Location := if p.isAbsolute then [] else t.current

/-- The location of something that is there. A slash at the end asks for a directory. -/
def locate (t : FileTree) (p : Path) : Except FileError Location :=
  match refusal? p with
  | some e => .error e
  | none => t.follow (t.origin p) (if p.endsInSlash then p.names ++ [Path.here] else p.names)

/-- The directory in which the last name of the path stands, and that name, none for the root. -/
def place (t : FileTree) (p : Path) : Except FileError (Location × Option Name) :=
  match refusal? p with
  | some e => .error e
  | none =>
    match p.names.getLast? with
    | none => .ok ([], none)
    | some name => do
      let l ← t.follow (t.origin p) p.names.dropLast
      if t.entry? l ≠ some .directory then .error .notDirectory
      else pure (l, some name)

def createDir (t : FileTree) (p : Path) : Except FileError FileTree := do
  match ← t.place p with
  | (_, none) => .error .alreadyExists
  | (l, some name) =>
    if name = Path.here || name = Path.up then .error .alreadyExists
    else if maxName < Path.byteLength name then .error .nameTooLong
    else if (t.entry? (l ++ [name])).isSome then .error .alreadyExists
    else .ok (t.set (l ++ [name]) .directory)

def isDirectory (t : FileTree) (p : Path) : Bool :=
  match t.locate p with
  | .ok l => t.entry? l == some .directory
  | .error _ => false

def isPresent (t : FileTree) (p : Path) : Bool := (t.locate p).isOk

def write (t : FileTree) (p : Path) (content : String) : Except FileError FileTree := do
  match ← t.place p with
  | (_, none) => .error .isDirectory
  | (l, some name) =>
    if name = Path.here || name = Path.up || p.endsInSlash then .error .isDirectory
    else if maxName < Path.byteLength name then .error .nameTooLong
    else if t.entry? (l ++ [name]) = some .directory then .error .isDirectory
    else .ok (t.set (l ++ [name]) (.file content))

def read (t : FileTree) (p : Path) : Except FileError String := do
  let l ← t.locate p
  match t.entry? l with
  | some (.file content) => .ok content
  | some .directory => .error .isDirectory
  | none => .error .notFound

/-- The files below a location, with the names from there in place of the full location. -/
def filesBelow (t : FileTree) (l : Location) : List (Location × String) :=
  t.entries.entries.filterMap fun e =>
    match e.2 with
    | .file content => if l.isPrefixOf e.1 then some (e.1.drop l.length, content) else none
    | .directory => none

end FileTree

end PatternAutomata
