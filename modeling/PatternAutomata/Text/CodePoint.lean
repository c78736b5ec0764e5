import PatternAutomata.Error

namespace PatternAutomata.Text

def sequenceLength (lead : UInt8) : Except Fault Nat :=
  if lead >>> 7 == 0 then .ok 1
  else if lead >>> 5 == 0b110 then .ok 2
  else if lead >>> 4 == 0b1110 then .ok 3
  else if lead >>> 3 == 0b11110 then .ok 4
  else .error .malformedCodePoint

def byteAt (bytes : Array UInt8) (position : Nat) : Except Fault UInt8 :=
  match bytes[position]? with
  | some b => .ok b
  | none => .error (.indexOutOfRange bytes.size position)

def continuation (bytes : Array UInt8) (position : Nat) : Except Fault Nat :=
  (byteAt bytes position).map fun b => b.toNat % 64

/-- The code point at `position`, with the position after it. A byte sequence that no string has is read by the same
masks, or ends in a fault. -/
def decodeAt (bytes : Array UInt8) (position : Nat) : Except Fault (Nat × Nat) := do
  let lead ← byteAt bytes position
  let length ← sequenceLength lead
  let value ← match length with
    | 1 => pure lead.toNat
    | 2 => do
      let b ← continuation bytes (position + 1)
      pure (lead.toNat % 32 * 64 + b)
    | 3 => do
      let b ← continuation bytes (position + 1)
      let c ← continuation bytes (position + 2)
      pure ((lead.toNat % 16 * 64 + b) * 64 + c)
    | _ => do
      let b ← continuation bytes (position + 1)
      let c ← continuation bytes (position + 2)
      let d ← continuation bytes (position + 3)
      pure (((lead.toNat % 8 * 64 + b) * 64 + c) * 64 + d)
  pure (value, position + length)

structure Cursor where
  bytes : Array UInt8
  position : Nat

namespace Cursor

def ofString (s : String) : Cursor := ⟨s.toUTF8.data, 0⟩

def atEnd (c : Cursor) : Bool := c.position == c.bytes.size

def advance (c : Cursor) : Except Fault (Nat × Cursor) := do
  let (value, next) ← decodeAt c.bytes c.position
  pure (value, ⟨c.bytes, next⟩)

/-- The code points from the cursor to the end, if they are at most `bound`. -/
def codePoints : Nat → Cursor → Except Fault (List Nat)
  | 0, _ => pure []
  | bound + 1, c =>
    if c.atEnd then pure []
    else do
      let (value, next) ← c.advance
      let rest ← codePoints bound next
      pure (value :: rest)

end Cursor

/-- Every code point takes at least one byte, so the byte length bounds their number. -/
def codePoints (s : String) : Except Fault (List Nat) :=
  let c := Cursor.ofString s
  c.codePoints c.bytes.size

end PatternAutomata.Text
