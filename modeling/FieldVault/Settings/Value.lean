import FieldVault.Binary64.Decimal
import FieldVault.Binary64.Shortest

/-!
# Values of settings

A setting is given as a text. What kind of value it is, is guessed from the text alone: a truth
value, a whole number of 64 bits with sign, a double, or else a text (`Value.ofText`). It is then
turned into the kind that the setting wants, as far as that makes sense. A text that was taken
for a number reads back in the number's own notation.
-/

set_option autoImplicit false

namespace FieldVault.Settings

/-- A value as guessed from its text. -/
inductive Value where
  | flag (value : Bool)
  | integer (value : Int)
  | double (value : Binary64)
  | text (value : String)
deriving DecidableEq

/-- A text with its ASCII letters in lower case. -/
def lowercase (text : String) : String := String.ofList (text.toList.map Char.toLower)

/-- The whole number that a text denotes, if it fits 64 bits with sign. -/
def parseInteger? (text : String) : Option Int :=
  let (negative, digits) := Binary64.splitSign text.toList
  if digits.isEmpty ∨ !digits.all Binary64.isDigit then none
  else
    let magnitude := Binary64.boundedValue (1 <<< 64) digits
    if negative then
      -- there is one more negative number of 64 bits than there are positive ones
      if magnitude ≤ 1 <<< 63 then some (-(magnitude : Int)) else none
    else if magnitude < 1 <<< 63 then some magnitude else none

namespace Value

/-- The value guessed from a text. -/
def ofText (text : String) : Value :=
  if lowercase text = "true" then .flag true
  else if lowercase text = "false" then .flag false
  else match parseInteger? text with
    | some i => .integer i
    | none =>
      match Binary64.parse? text with
      | some x => .double x
      | none => .text text

/-- Doubles read as text are written out without exponent and without a point for whole
numbers. -/
def doubleLayout : Binary64.Layout where
  tie := .up
  isPositional _ := true
  keepsPoint := false
  exponentSign := ""
  infinity := "inf"
  nan := "NaN"

/-- The value as a text. -/
def toText : Value → String
  | .flag b => if b then "true" else "false"
  | .integer i => toString i
  | .double x => doubleLayout.render x
  | .text s => s

/-- The truth value that a word stands for, in any case. -/
def wordFlag? (text : String) : Option Bool :=
  let word := lowercase text
  if ["true", "on", "yes"].contains word then some true
  else if ["false", "off", "no"].contains word then some false
  else none

/-- A truth value as a number. -/
def ofFlag (b : Bool) : Nat := if b then 1 else 0

/-- The value as a double. -/
def toDouble? : Value → Option Binary64
  | .flag b => some (Binary64.ofNat (ofFlag b))
  | .integer i => some (Binary64.ofInt i)
  | .double x => some x
  | .text s => (wordFlag? s).map fun b => Binary64.ofNat (ofFlag b)

/-- The value as a number of 64 bits; a double is rounded and brought into the range, a negative
whole number is refused. -/
def toWord? : Value → Option Nat
  | .flag b => some (ofFlag b)
  | .integer i => if 0 ≤ i then some i.toNat else none
  | .double x => some x.roundWord
  | .text s => (wordFlag? s).map ofFlag

/-- The value as a number of at most `limit`. -/
def toBounded? (limit : Nat) (value : Value) : Option Nat :=
  match value.toWord? with
  | some n => if n ≤ limit then some n else none
  | none => none

/-- The value as a truth value; a number is true unless it is zero. -/
def toFlag? : Value → Option Bool
  | .flag b => some b
  | .integer i => some (i != 0)
  | .double x => some (!x.isZero)
  | .text s => wordFlag? s

end Value

end FieldVault.Settings
