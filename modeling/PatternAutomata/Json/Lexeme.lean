namespace PatternAutomata.Json

namespace Number

def maxSignificand : Nat := 0xffffffffffffffff

/-- Reads digits on from `n` as long as they fit, and tells how many do not. -/
def takeDigits (n : Nat) : List Char → Nat × Nat
  | [] => (n, 0)
  | c :: rest =>
    let m := n * 10 + (c.toNat - '0'.toNat)
    if m ≤ maxSignificand then takeDigits m rest else (n, rest.length + 1)

/-- The nearest number with 53 significant bits; of two, the one with an even last bit. -/
def roundToDouble (n : Nat) : Nat :=
  let unit := Nat.pow 2 (n.log2 - 52)
  let low := n / unit
  let rest := n % unit * 2
  (if rest < unit || rest = unit && low % 2 = 0 then low else low + 1) * unit

def limit : Nat := Nat.pow 2 1024 - Nat.pow 2 970

/-- Whether a number in decimal notation is finite in double precision. The leading digits that fit into 64 bits are
scaled by a power of ten; both factors and their product are rounded. -/
def inRange (text : List Char) : Bool :=
  let unsigned := text.dropWhile (· == '-')
  let whole := unsigned.takeWhile Char.isDigit
  let afterWhole := unsigned.drop whole.length
  let fraction := if afterWhole.head? == some '.' then (afterWhole.drop 1).takeWhile Char.isDigit else []
  let power := unsigned.dropWhile fun c => c.isDigit || c == '.'
  let size : Nat := (power.filter Char.isDigit).foldl (fun n c => n * 10 + (c.toNat - '0'.toNat)) 0
  let (n, wholeLeft) := takeDigits 0 whole
  let (significand, fractionLeft) := takeDigits n fraction
  let gain : Int := if power.contains '-' then -size else size
  let exponent := gain + wholeLeft - (fraction.length - fractionLeft : Nat)
  significand == 0 || exponent < 0 ||
    exponent ≤ 308 && roundToDouble significand * roundToDouble (Nat.pow 10 exponent.toNat) < limit

end Number

inductive Word
  | null
  | true
  | false
deriving DecidableEq

def Word.text : Word → List Char
  | null => "null".toList
  | true => "true".toList
  | false => "false".toList

inductive Lexeme
  | openArray
  | closeArray
  | openObject
  | closeObject
  | comma
  | colon
  | word (w : Word)
  | number (digits : List Char)
  | string (s : String)
deriving DecidableEq

namespace Lexeme

/-- How far a number has got: `zero`, `integer`, `fraction` and `exponent` may end it. -/
inductive NumberPart
  | sign
  | zero
  | integer
  | point
  | fraction
  | e
  | eSign
  | exponent
deriving DecidableEq

def NumberPart.mayEnd : NumberPart → Bool
  | zero | integer | fraction | exponent => Bool.true
  | sign | point | e | eSign => Bool.false

def NumberPart.next? (p : NumberPart) (c : Char) : Option NumberPart :=
  match p with
  | sign => if c == '0' then some zero else if c.isDigit then some integer else none
  | zero => if c == '.' then some point else if c == 'e' || c == 'E' then some e else none
  | integer =>
    if c.isDigit then some integer else if c == '.' then some point
    else if c == 'e' || c == 'E' then some e else none
  | point => if c.isDigit then some fraction else none
  | fraction => if c.isDigit then some fraction else if c == 'e' || c == 'E' then some e else none
  | e => if c == '+' || c == '-' then some eSign else if c.isDigit then some exponent else none
  | eSign | exponent => if c.isDigit then some exponent else none

/-- What is being read. Characters read so far are kept latest first. -/
inductive Mode
  | between
  /-- The characters of a word still to come. -/
  | word (w : Word) (rest : List Char)
  | number (part : NumberPart) (read : List Char)
  | string (read : List Char)
  | escape (read : List Char)
  /-- A code unit of which `missing` digits are to come; `high` is a surrogate read before it. -/
  | codeUnit (read : List Char) (high : Option Nat) (missing : Nat) (value : Nat)
  /-- A high surrogate that wants the escape of a low one. -/
  | afterHigh (read : List Char) (high : Nat)
  | afterHighEscape (read : List Char) (high : Nat)

def hexDigit? (c : Char) : Option Nat :=
  if c.isDigit then some (c.toNat - '0'.toNat)
  else if 'a' ≤ c && c ≤ 'f' then some (c.toNat - 'a'.toNat + 10)
  else if 'A' ≤ c && c ≤ 'F' then some (c.toNat - 'A'.toNat + 10)
  else none

def afterUnit (read : List Char) (high : Option Nat) (unit : Nat) : Option Mode :=
  match high with
  | none =>
    if 0xd800 ≤ unit && unit ≤ 0xdbff then some (.afterHigh read unit)
    else if h : unit.isValidChar then some (.string (Char.ofNatAux unit h :: read))
    else none
  | some high =>
    if 0xdc00 ≤ unit && unit ≤ 0xdfff then
      some (.string (Char.ofNat (0x10000 + (high - 0xd800) * 0x400 + (unit - 0xdc00)) :: read))
    else none

def unescape? : Char → Option Char
  | '\x22' => some '\x22'
  | '\\' => some '\\'
  | '/' => some '/'
  | 'b' => some '\x08'
  | 'f' => some '\x0c'
  | 'n' => some '\n'
  | 'r' => some '\r'
  | 't' => some '\t'
  | _ => none

def begin (c : Char) : Option (Mode × List Lexeme) :=
  match c with
  | ' ' | '\n' | '\r' | '\t' => some (.between, [])
  | '[' => some (.between, [openArray])
  | ']' => some (.between, [closeArray])
  | '\x7b' => some (.between, [openObject])
  | '\x7d' => some (.between, [closeObject])
  | ',' => some (.between, [comma])
  | ':' => some (.between, [colon])
  | '\x22' => some (.string [], [])
  | 'n' => some (.word .null ['u', 'l', 'l'], [])
  | 't' => some (.word .true ['r', 'u', 'e'], [])
  | 'f' => some (.word .false ['a', 'l', 's', 'e'], [])
  | '-' => some (.number .sign [c], [])
  | '0' => some (.number .zero [c], [])
  | _ => if c.isDigit then some (.number .integer [c], []) else none

def endNumber (part : NumberPart) (read : List Char) : Option Lexeme :=
  if part.mayEnd && Number.inRange read.reverse then some (number read.reverse) else none

/-- Reads one character; lexemes that it completes come out. -/
def step (mode : Mode) (c : Char) : Option (Mode × List Lexeme) :=
  match mode with
  | .between => begin c
  | .word w rest =>
    match rest with
    | [] => none
    | [last] => if c == last then some (.between, [word w]) else none
    | next :: rest => if c == next then some (.word w rest, []) else none
  | .number part read =>
    match part.next? c with
    | some next => some (.number next (c :: read), [])
    | none => do
      let done ← endNumber part read
      let (mode, out) ← begin c
      pure (mode, done :: out)
  | .string read =>
    if c == '\x22' then some (.between, [string (String.ofList read.reverse)])
    else if c == '\\' then some (.escape read, [])
    else if c.toNat < 0x20 then none
    else some (.string (c :: read), [])
  | .escape read =>
    if c == 'u' then some (.codeUnit read none 4 0, [])
    else (unescape? c).map fun d => (.string (d :: read), [])
  | .codeUnit read high missing value => do
    let digit ← hexDigit? c
    let value := value * 16 + digit
    if missing ≤ 1 then (afterUnit read high value).map (·, [])
    else some (.codeUnit read high (missing - 1) value, [])
  | .afterHigh read high => if c == '\\' then some (.afterHighEscape read high, []) else none
  | .afterHighEscape read high => if c == 'u' then some (.codeUnit read (some high) 4 0, []) else none

def finish : Mode → Option (List Lexeme)
  | .between => some []
  | .number part read => (endNumber part read).map ([·])
  | _ => none

/-- The lexemes of a text that is read on from `mode`, after those that came `before`, latest first. -/
def lexFrom (mode : Mode) (before : List Lexeme) : List Char → Option (List Lexeme)
  | [] => (finish mode).map (before.reverse ++ ·)
  | c :: rest =>
    match step mode c with
    | none => none
    | some (mode, out) => lexFrom mode (out.reverse ++ before) rest

def lex (text : List Char) : Option (List Lexeme) := lexFrom .between [] text

end Lexeme

end PatternAutomata.Json
