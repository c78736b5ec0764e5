namespace PatternAutomata

abbrev Name := List Char

structure Path where
  chars : List Char
deriving DecidableEq

namespace Path

def ofString (s : String) : Path := ⟨s.toList⟩

def text (p : Path) : String := String.ofList p.chars

def pieces : List Char → List Name
  | [] => [[]]
  | c :: rest =>
    if c = '/' then [] :: pieces rest
    else
      match pieces rest with
      | [] => [[c]]
      | piece :: later => (c :: piece) :: later

def isAbsolute (p : Path) : Bool := p.chars.head? == some '/'

def endsInSlash (p : Path) : Bool := p.chars.getLast? == some '/'

/-- The path `q` as seen from the directory `p`; an absolute one stands for itself. -/
def join (p q : Path) : Path :=
  if q.isAbsolute then q
  else if p.chars.isEmpty || p.endsInSlash then ⟨p.chars ++ q.chars⟩
  else ⟨p.chars ++ '/' :: q.chars⟩

def here : Name := ['.']

def up : Name := ['.', '.']

def names (p : Path) : List Name := (pieces p.chars).filter fun piece => !piece.isEmpty

/-- The names that count for parents: `.` is left out unless a relative path begins with it. -/
def components (p : Path) : List Name :=
  match p.names with
  | [] => []
  | first :: rest =>
    let rest := rest.filter (· != here)
    if first = here && p.isAbsolute then rest else first :: rest

def ofComponents (absolute : Bool) (names : List Name) : Path :=
  ⟨(if absolute then ['/'] else []) ++ ['/'].intercalate names⟩

/-- The directories above, the nearest first; the last is the root or the empty path. -/
def ancestors (p : Path) : List Path :=
  let components := p.components
  (List.range components.length).reverse.map fun n => ofComponents p.isAbsolute (components.take n)

def byteLength (name : List Char) : Nat := (String.ofList name).utf8ByteSize

end Path

end PatternAutomata
