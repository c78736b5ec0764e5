import PatternAutomata.Regex

namespace PatternAutomata

namespace Regex

structure Group where
  /-- The alternatives before the current one, latest first. -/
  branches : List Regex
  /-- The items of the current alternative, latest first. -/
  items : List Regex
deriving DecidableEq

namespace Group

def new : Group := ⟨[], []⟩

def push (g : Group) (r : Regex) : Group := { g with items := r :: g.items }

def branch (g : Group) : Regex :=
  match g.items with
  | [] => empty
  | last :: before => before.foldl (fun r item => seq item r) last

def divide (g : Group) : Group := ⟨g.branch :: g.branches, []⟩

def close (g : Group) : Regex := g.branches.foldl (fun r b => alt b r) g.branch

def repeatLast (f : Regex → Regex) (g : Group) : Option Group :=
  match g.items with
  | [] => none
  | last :: before => some { g with items := f last :: before }

end Group

/-- Where the reader stands: between items, or inside the text of one. -/
inductive Place
  | item
  | escape
  | groupMark
  | groupColon
  | classFirst
  | classFirstEscape
  | classHyphen (first : Char)
  | classLast (first : Char)
  | classLastEscape (first : Char)
  | classEnd (first last : Char)
deriving DecidableEq

structure Reading where
  place : Place
  group : Group
  /-- The groups around, innermost first. -/
  outer : List Group
deriving DecidableEq

/-- Characters that are no literals unless a backslash stands before them. -/
def metacharacters : List Char := ['.', '^', '$', '|', '(', ')', '[', ']', '\x7b', '\x7d', '*', '+', '?']

namespace Reading

def start : Reading := ⟨.item, .new, []⟩

def push (s : Reading) (r : Regex) : Reading := { s with place := .item, group := s.group.push r }

def repeatLast (s : Reading) (f : Regex → Regex) : Option Reading :=
  (s.group.repeatLast f).map fun g => { s with group := g }

def stepItem (s : Reading) (c : Char) : Option Reading :=
  match c with
  | '\\' => some { s with place := .escape }
  | '(' => some { s with place := .groupMark }
  | '[' => some { s with place := .classFirst }
  | '|' => some { s with group := s.group.divide }
  | '*' => s.repeatLast .star
  | '+' => s.repeatLast .plus
  | '?' => s.repeatLast .optional
  | ')' =>
    match s.outer with
    | [] => none
    | g :: outer => some ⟨.item, g.push (.group s.group.close), outer⟩
  | _ => if metacharacters.contains c then none else some (s.push (.literal c))

def step (s : Reading) (c : Char) : Option Reading :=
  match s.place with
  | .item => s.stepItem c
  | .escape => some (s.push (.literal c))
  | .groupMark => if c = '?' then some { s with place := .groupColon } else none
  | .groupColon => if c = ':' then some ⟨.item, .new, s.group :: s.outer⟩ else none
  | .classFirst => some { s with place := if c = '\\' then .classFirstEscape else .classHyphen c }
  | .classFirstEscape => some { s with place := .classHyphen c }
  | .classHyphen first => if c = '-' then some { s with place := .classLast first } else none
  | .classLast first => some { s with place := if c = '\\' then .classLastEscape first else .classEnd first c }
  | .classLastEscape first => some { s with place := .classEnd first c }
  | .classEnd first last => if c = ']' then some (s.push (.range first last)) else none

end Reading

/-- The expression that a text writes, if it writes one: a backslash makes a literal of what follows, `[x-y]` is a range,
`(?:` and `)` group, a repetition applies to the item before it, and alternation binds loosest. -/
def ofText? (text : List Char) : Option Regex :=
  match text.foldlM Reading.step .start with
  | some ⟨.item, whole, []⟩ => some whole.close
  | _ => none

end Regex

end PatternAutomata
