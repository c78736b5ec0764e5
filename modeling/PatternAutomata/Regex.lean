namespace PatternAutomata

inductive Regex
  | empty
  | literal (c : Char)
  | range (first last : Char)
  | group (r : Regex)
  | seq (r s : Regex)
  | alt (r s : Regex)
  | star (r : Regex)
  | plus (r : Regex)
  | optional (r : Regex)
deriving DecidableEq

namespace Regex

/-- Characters that the syntax gives a meaning, inside or outside a class. -/
def special : List Char :=
  ['\\', '.', '+', '*', '?', '(', ')', '|', '[', ']', '\x7b', '\x7d', '^', '$', '#', '&', '-', '~']

def escape (c : Char) : List Char := if special.contains c then ['\\', c] else [c]

end Regex

/-- An expression with marks. `nullable` tells whether it matches the empty word, `complete` whether a
match can end at a mark, and `live` whether there is a mark at all. -/
inductive Marked
  | empty
  | range (first last : Char) (mark : Bool)
  | seq (nullable complete live : Bool) (r s : Marked)
  | alt (nullable complete live : Bool) (r s : Marked)
  | plus (nullable complete live : Bool) (r : Marked)
  | optional (complete live : Bool) (r : Marked)
deriving DecidableEq

namespace Marked

def isNullable : Marked → Bool
  | empty => true
  | range _ _ _ => false
  | seq nullable _ _ _ _ | alt nullable _ _ _ _ | plus nullable _ _ _ => nullable
  | optional _ _ _ => true

def isComplete : Marked → Bool
  | empty => false
  | range _ _ mark => mark
  | seq _ complete _ _ _ | alt _ complete _ _ _ | plus _ complete _ _ | optional complete _ _ => complete

def isLive : Marked → Bool
  | empty => false
  | range _ _ mark => mark
  | seq _ _ live _ _ | alt _ _ live _ _ | plus _ _ live _ | optional _ live _ => live

def sequence (r s : Marked) : Marked :=
  seq (r.isNullable && s.isNullable) (r.isComplete && s.isNullable || s.isComplete) (r.isLive || s.isLive) r s

def choice (r s : Marked) : Marked :=
  alt (r.isNullable || s.isNullable) (r.isComplete || s.isComplete) (r.isLive || s.isLive) r s

def repeated (r : Marked) : Marked := plus r.isNullable r.isComplete r.isLive r

def possible (r : Marked) : Marked := optional r.isComplete r.isLive r

def ofRegex : Regex → Marked
  | .empty => empty
  | .literal c => range c c false
  | .range first last => range first last false
  | .group r => ofRegex r
  | .seq r s => sequence (ofRegex r) (ofRegex s)
  | .alt r s => choice (ofRegex r) (ofRegex s)
  | .star r => possible (repeated (ofRegex r))
  | .plus r => repeated (ofRegex r)
  | .optional r => possible (ofRegex r)

/-- Moves the marks on over `c`; if the expression is `entered`, a match may also begin with `c`. -/
def advance (c : Char) (entered : Bool) (m : Marked) : Marked :=
  if !entered && !m.isLive then m
  else
    match m with
    | empty => empty
    | range first last _ => range first last (entered && first ≤ c && c ≤ last)
    | seq _ _ _ r s =>
      sequence (r.advance c entered) (s.advance c (r.isComplete || entered && r.isNullable))
    | alt _ _ _ r s => choice (r.advance c entered) (s.advance c entered)
    | plus _ _ _ r => repeated (r.advance c (entered || r.isComplete))
    | optional _ _ r => possible (r.advance c entered)

def accepts (m : Marked) : List Char → Bool
  | [] => m.isNullable
  | c :: rest => (rest.foldl (fun m c => m.advance c false) (m.advance c true)).isComplete

end Marked

end PatternAutomata
