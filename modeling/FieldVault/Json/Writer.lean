import FieldVault.Bytes
import FieldVault.Binary64.Shortest
import FieldVault.Json

/-!
# Writing JSON

The compact form of a value: no space, members in the order the value has them, and in strings
only the quote, the backslash and the control characters escaped. A value is written piece by piece
to wherever the pieces are taken (`Json.writeTo`); what is written as a whole is its `encode`.
-/

set_option autoImplicit false

namespace FieldVault.Json

/-- Doubles are written out from 10⁻⁵ up to but not including 10¹⁶, always with a digit after the
point, and otherwise with a signed exponent; an exact tie goes to the even digit. -/
def numberLayout : Binary64.Layout where
  tie := .toEven
  isPositional power := -5 ≤ power && power < 16
  keepsPoint := true
  exponentSign := "+"
  infinity := "null"
  nan := "null"

/-- The letter of the short escape of a byte, if it has one. -/
def escapeLetter? (b : UInt8) : Option UInt8 :=
  if b = 0x22 ∨ b = 0x5c then some b
  else if b = 0x08 then some 0x62
  else if b = 0x09 then some 0x74
  else if b = 0x0a then some 0x6e
  else if b = 0x0c then some 0x66
  else if b = 0x0d then some 0x72
  else none

/-- The lowercase hexadecimal digit of a value below sixteen. -/
def hexDigit (n : Nat) : UInt8 := UInt8.ofNat (if n < 10 then 0x30 + n else 0x57 + n)

/-- A byte of a string as it is written. -/
def encodeByte (b : UInt8) : Bytes :=
  match escapeLetter? b with
  | some letter => [0x5c, letter]
  | none =>
    if b < 0x20 then
      -- no control character needs more than the last two of the four digits
      [0x5c, 0x75, 0x30, 0x30, hexDigit (b.toNat / 16), hexDigit (b.toNat % 16)]
    else [b]

/-- A string with its quotes. -/
def encodeString (text : String) : Bytes :=
  0x22 :: (Bytes.ofText text).flatMap encodeByte ++ [0x22]

mutual

/-- The compact form of a value. -/
def encode : Json → Bytes
  | .null => Bytes.ofText "null"
  | .bool b => Bytes.ofText (if b then "true" else "false")
  | .int i => Bytes.ofText (toString i)
  | .double x => Bytes.ofText (numberLayout.render x)
  | .str s => encodeString s
  | .arr items => 0x5b :: encodeItems items
  | .obj members => 0x7b :: encodeMembers members

/-- The items of an array, separated by commas, and its closing bracket. -/
def encodeItems : List Json → Bytes
  | [] => [0x5d]
  | [item] => encode item ++ [0x5d]
  | item :: next :: rest => encode item ++ 0x2c :: encodeItems (next :: rest)

/-- The members of an object, separated by commas, and its closing brace. -/
def encodeMembers : List (String × Json) → Bytes
  | [] => [0x7d]
  | [(name, value)] => encodeString name ++ 0x3a :: encode value ++ [0x7d]
  | (name, value) :: next :: rest =>
    encodeString name ++ 0x3a :: encode value ++ 0x2c :: encodeMembers (next :: rest)

end

/-! ### Writing piece by piece -/

/-- Why a piece of a text was not taken. -/
structure WriteFault where
  message : String
deriving DecidableEq

section

variable {m : Type → Type} [Monad m] (put : Bytes → m Unit)

mutual

/-- Write a value in its compact form. -/
def writeTo : Json → m Unit
  | .null => put (Bytes.ofText "null")
  | .bool b => put (Bytes.ofText (if b then "true" else "false"))
  | .int i => put (Bytes.ofText (toString i))
  | .double x => put (Bytes.ofText (numberLayout.render x))
  | .str s => put (encodeString s)
  | .arr items => do
    put [0x5b]
    writeItems items
  | .obj members => do
    put [0x7b]
    writeMembers members

/-- Write the items of an array, separated by commas, and its closing bracket. -/
def writeItems : List Json → m Unit
  | [] => put [0x5d]
  | [item] => do
    writeTo item
    put [0x5d]
  | item :: next :: rest => do
    writeTo item
    put [0x2c]
    writeItems (next :: rest)

/-- Write the members of an object, separated by commas, and its closing brace. -/
def writeMembers : List (String × Json) → m Unit
  | [] => put [0x7d]
  | [(name, value)] => do
    put (encodeString name)
    put [0x3a]
    writeTo value
    put [0x7d]
  | (name, value) :: next :: rest => do
    put (encodeString name)
    put [0x3a]
    writeTo value
    put [0x2c]
    writeMembers (next :: rest)

end

end

/-- Take a piece into memory, where the pieces stand with the last one first. -/
def putInMemory (piece : Bytes) : StateT (List Bytes) (Except WriteFault) Unit :=
  modify fun pieces => piece :: pieces

/-- The compact form of a value, written to memory. -/
def toBytes? (value : Json) : Except WriteFault Bytes := do
  let (_, pieces) ← (value.writeTo putInMemory).run []
  return pieces.reverse.flatten

end FieldVault.Json
