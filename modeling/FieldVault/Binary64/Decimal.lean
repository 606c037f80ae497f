import FieldVault.Binary64

/-!
# Reading doubles from decimal text

The double nearest to a decimal, however many digits and however large an exponent it has
(`ofDecimal`), and the decimal notation in which settings give numbers (`parse?`): a sign,
digits with a point anywhere among them, an exponent, or the names of the special values in any
case.
-/

set_option autoImplicit false

namespace FieldVault.Binary64

/-- Powers of ten beyond which every decimal overflows or vanishes. -/
def decimalRange : Int := 400

/-- The double nearest to `± digits · 10 ^ exponent`, where `digits` has `length` digits or
fewer. -/
def ofDecimal (negative : Bool) (digits length : Nat) (exponent : Int) : Binary64 :=
  if digits = 0 then zero negative
  else if exponent + length < -decimalRange then zero negative
  else if decimalRange + length < exponent then infinity negative
  else ofRatio negative (digits * Nat.pow 10 exponent.toNat) (Nat.pow 10 (-exponent).toNat)

/-- Whether a character is an ASCII digit. -/
def isDigit (c : Char) : Bool := '0' ≤ c && c ≤ '9'

/-- The number written by a list of digits. -/
def digitsValue (digits : List Char) : Nat :=
  digits.foldl (fun n c => 10 * n + (c.toNat - 48)) 0

/-- A sign before a number, and the rest. -/
def splitSign : List Char → Bool × List Char
  | '-' :: rest => (true, rest)
  | '+' :: rest => (false, rest)
  | text => (false, text)

/-- The number written by a list of digits, or `limit` if it is greater. -/
def boundedValue (limit : Nat) (digits : List Char) : Nat :=
  digits.foldl (fun n c => min (10 * n + (c.toNat - 48)) limit) 0

/-- Digits of an exponent beyond this value are passed over. -/
def exponentLimit : Nat := 65536

/-- The exponent written by a list of digits. -/
def exponentValue (digits : List Char) : Nat :=
  digits.foldl (fun n c => if n < exponentLimit then 10 * n + (c.toNat - 48) else n) 0

/-- The number of digits that can matter. Halfway between two doubles there is a decimal of fewer
digits, so behind this many it only matters whether another one is not zero. -/
def decisiveDigits : Nat := 800

/-- The double nearest to `± digits · 10 ^ exponent`, where leading zeros do not matter. -/
def ofDigits (negative : Bool) (digits : List Char) (exponent : Int) : Binary64 :=
  let digits := digits.dropWhile (· = '0')
  let kept := digits.take decisiveDigits
  let passed := digits.drop decisiveDigits
  let exponent := exponent + passed.length
  if passed.all (· = '0') then ofDecimal negative (digitsValue kept) kept.length exponent
  -- one more digit stands for all those passed over
  else ofDecimal negative (10 * digitsValue kept + 1) (kept.length + 1) (exponent - 1)

/-- The exponent that ends a number: nothing, or `e` with a signed whole number. -/
def parseExponent? : List Char → Option Int
  | [] => some 0
  | c :: rest =>
    if c = 'e' ∨ c = 'E' then
      let (negative, digits) := splitSign rest
      if digits.isEmpty ∨ !digits.all isDigit then none
      else some (if negative then -(exponentValue digits : Int) else exponentValue digits)
    else none

/-- The fraction after the whole digits, and the rest. -/
def splitFraction : List Char → List Char × List Char
  | '.' :: rest => (rest.takeWhile isDigit, rest.dropWhile isDigit)
  | text => ([], text)

/-- The double of a number without its sign. -/
def parseMagnitude? (negative : Bool) (text : List Char) : Option Binary64 :=
  let whole := text.takeWhile isDigit
  let (fraction, rest) := splitFraction (text.dropWhile isDigit)
  let digits := whole ++ fraction
  if digits.isEmpty then none
  else (parseExponent? rest).map fun e => ofDigits negative digits (e - fraction.length)

/-- The special value that a name stands for, in any case. -/
def parseName? (negative : Bool) (text : List Char) : Option Binary64 :=
  let name := String.ofList (text.map Char.toLower)
  if name = "nan" then some notANumber
  else if name = "inf" ∨ name = "infinity" then some (infinity negative)
  else none

/-- The double that a text denotes, if it is one. -/
def parse? (text : String) : Option Binary64 :=
  let (negative, rest) := splitSign text.toList
  (parseMagnitude? negative rest).or (parseName? negative rest)

end FieldVault.Binary64
