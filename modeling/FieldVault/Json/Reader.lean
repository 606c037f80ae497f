import FieldVault.Bytes
import FieldVault.Json

/-!
# Reading JSON

A reader takes a value from the front of a byte string and gives the rest. It fails in one of
three ways: the text ends too early, it is no JSON, or it is JSON of another shape than the one
wanted. The loops over the items of an array and the members of an object are written once, over
any reader of what stands in them (`itemsWith`, `membersWith`); values nest at most
`nestingLimit` deep. A loop runs no longer than its input: it takes the input itself as fuel and
burns a byte of it in every round.
-/

set_option autoImplicit false

namespace FieldVault.Json

/-- Why a text cannot be read. -/
inductive Fault where
  /-- The text ends too early. -/
  | truncated
  /-- The text is not JSON, or holds more than the value. -/
  | malformed
  /-- The text is JSON of another shape than the one wanted. -/
  | mismatch
deriving DecidableEq, Repr

/-- A reader of something at the front of a byte string. -/
abbrev Reader (α : Type) := Bytes → Except Fault (α × Bytes)

/-- Whether a byte is one of the four that may stand between tokens. -/
def isSpace (b : UInt8) : Bool := b = 0x20 || b = 0x09 || b = 0x0a || b = 0x0d

/-- The bytes after leading space. -/
def skipSpace (input : Bytes) : Bytes := input.dropWhile isSpace

/-- Whether a byte is a decimal digit. -/
def isDigit (b : UInt8) : Bool := 0x30 ≤ b && b ≤ 0x39

/-- The value of a decimal digit. -/
def digitValue (b : UInt8) : Nat := b.toNat - 0x30

/-- The rest after the bytes of a word. -/
def word : Bytes → Bytes → Except Fault Bytes
  | [], input => .ok input
  | _ :: _, [] => .error .truncated
  | w :: ws, b :: input => if b = w then word ws input else .error .malformed

/-! ### Numbers -/

/-- The greatest integer that is kept as one. -/
def maxInteger : Nat := Binary64.maxWord

/-- The significand so far extended by digits for as long as it fits 64 bits, and the digits
that no longer do. -/
def gather : Nat → Bytes → Nat × Bytes
  | significand, [] => (significand, [])
  | significand, d :: digits =>
    let next := 10 * significand + digitValue d
    if next ≤ maxInteger then gather next digits else (significand, d :: digits)

/-- A power of ten as a double. -/
def powerOfTen (n : Nat) : Binary64 := Binary64.ofRatio false (Nat.pow 10 n) 1

/-- The greatest power of ten that is finite as a double. -/
def maxPower : Nat := 308

/-- The double of `significand · 10 ^ exponent`, by one correctly rounded multiplication or
division by a power of ten, or two divisions for small values. A value beyond the range is no
number. -/
def doubleOf (significand : Nat) (exponent : Int) : Except Fault Binary64 :=
  let x := Binary64.ofNat significand
  if 0 ≤ exponent then
    if exponent ≤ maxPower then
      let y := x.mul (powerOfTen exponent.toNat)
      if y.isFinite then .ok y else .error .malformed
    else if significand = 0 then .ok x
    else .error .malformed
  else
    let places := (-exponent).toNat
    if places ≤ maxPower then .ok (x.div (powerOfTen places))
    else if places ≤ 2 * maxPower then
      -- the power itself would be infinite, so its two parts are divided by in turn
      .ok ((x.div (powerOfTen maxPower)).div (powerOfTen (places - maxPower)))
    else .ok (Binary64.zero false)

/-- A bound for exponents; one that is as great as this makes every number zero or too great. -/
def exponentLimit : Nat := 1 <<< 31

/-- The number that the digits of an exponent write, or the bound if it is greater. -/
def exponentValue (digits : Bytes) : Nat :=
  digits.foldl (fun n d => min (10 * n + digitValue d) exponentLimit) 0

/-- The exponent after its letter: a sign and at least one digit. -/
def exponentDigits (input : Bytes) : Except Fault (Int × Bytes) :=
  let (negative, digits) :=
    match input with
    | [] => (false, [])
    | b :: rest =>
      if b = 0x2b then (false, rest) else if b = 0x2d then (true, rest) else (false, input)
  match digits with
  | [] => .error .truncated
  | d :: _ =>
    if isDigit d then
      let n := exponentValue (digits.takeWhile isDigit)
      .ok (if negative then -(n : Int) else n, digits.dropWhile isDigit)
    else .error .malformed

/-- The exponent of a number, zero if none is given. -/
def exponentPart : Bytes → Except Fault (Option Int × Bytes)
  | [] => .ok (none, [])
  | b :: rest =>
    if b = 0x65 ∨ b = 0x45 then do
      let (e, rest) ← exponentDigits rest
      return (some e, rest)
    else .ok (none, b :: rest)

/-- The digits after the point, if there is one; a point needs at least one digit. -/
def fractionPart : Bytes → Except Fault (Option Bytes × Bytes)
  | [] => .ok (none, [])
  | b :: rest =>
    if b = 0x2e then
      match rest with
      | [] => .error .truncated
      | d :: _ =>
        if isDigit d then .ok (some (rest.takeWhile isDigit), rest.dropWhile isDigit)
        else .error .malformed
    else .ok (none, b :: rest)

/-- The digits before the point; a leading zero stands alone. -/
def wholePart : Bytes → Except Fault (Bytes × Bytes)
  | [] => .error .truncated
  | b :: rest =>
    if isDigit b then
      if b = 0x30 then
        match rest with
        | [] => .ok ([b], [])
        | d :: _ => if isDigit d then .error .malformed else .ok ([b], rest)
      else .ok (b :: rest.takeWhile isDigit, rest.dropWhile isDigit)
    else .error .malformed

/-- A whole number: an integer if it fits, a double otherwise and for negative zero. -/
def integerOf (negative : Bool) (significand : Nat) : Json :=
  if negative then
    -- an integer has no negative zero
    if 0 < significand ∧ significand ≤ 1 <<< 63 then .int (-(significand : Int))
    else .double (Binary64.ofNat significand).neg
  else .int significand

/-- A number after its sign. -/
def number (negative : Bool) : Reader Json := fun input => do
  let (whole, input) ← wholePart input
  let (fraction, input) ← fractionPart input
  let (exponent, input) ← exponentPart input
  let (significand, unread) := gather 0 whole
  match fraction, exponent, unread with
  | none, none, [] => return (integerOf negative significand, input)
  | _, _, _ =>
    let digits := fraction.getD []
    let (significand, ignored) := gather significand digits
    -- a whole digit left unread is a power of ten more, a digit of the fraction read one less
    let shift : Int := (unread.length : Int) - (digits.length - ignored.length : Nat)
    let x ← doubleOf significand (shift + exponent.getD 0)
    return (.double (if negative then x.neg else x), input)

/-! ### Strings -/

/-- The value of a hexadecimal digit in either case. -/
def hexValue? (b : UInt8) : Option Nat :=
  if isDigit b then some (digitValue b)
  else if 0x61 ≤ b ∧ b ≤ 0x66 then some (b.toNat - 0x57)
  else if 0x41 ≤ b ∧ b ≤ 0x46 then some (b.toNat - 0x37)
  else none

/-- A unit of four hexadecimal digits. -/
def hexUnit : Reader Nat
  | a :: b :: c :: d :: rest =>
    match hexValue? a, hexValue? b, hexValue? c, hexValue? d with
    | some a, some b, some c, some d => .ok (((a * 16 + b) * 16 + c) * 16 + d, rest)
    | _, _, _, _ => .error .malformed
  | _ => .error .truncated

/-- The second of two units that stand for one character, after the escape that leads to it. -/
def trailingUnit : Reader Nat := fun input => do
  let rest ← match input with
    | [] => .error .truncated
    | b :: rest => if b = 0x5c then .ok rest else .error .malformed
  let rest ← match rest with
    | [] => .error .truncated
    | b :: rest => if b = 0x75 then .ok rest else .error .malformed
  let (unit, rest) ← hexUnit rest
  if 0xdc00 ≤ unit ∧ unit ≤ 0xdfff then return (unit, rest) else .error .malformed

/-- The UTF-8 bytes of the character that an escape of hexadecimal units stands for. -/
def unicodeEscape : Reader Bytes := fun input => do
  let (unit, rest) ← hexUnit input
  -- the second unit of a pair stands for nothing without the first
  if 0xdc00 ≤ unit ∧ unit ≤ 0xdfff then .error .malformed
  else if 0xd800 ≤ unit ∧ unit ≤ 0xdbff then
    let (second, rest) ← trailingUnit rest
    let code := 0x10000 + (unit - 0xd800) * 0x400 + (second - 0xdc00)
    return (String.utf8EncodeChar (Char.ofNat code), rest)
  else return (String.utf8EncodeChar (Char.ofNat unit), rest)

/-- The byte that a one-letter escape stands for. -/
def shortEscape? (b : UInt8) : Option UInt8 :=
  if b = 0x22 ∨ b = 0x5c ∨ b = 0x2f then some b
  else if b = 0x62 then some 0x08
  else if b = 0x66 then some 0x0c
  else if b = 0x6e then some 0x0a
  else if b = 0x72 then some 0x0d
  else if b = 0x74 then some 0x09
  else none

/-- The bytes that an escape stands for, after its backslash. -/
def escape : Reader Bytes
  | [] => .error .truncated
  | b :: rest =>
    if b = 0x75 then unicodeEscape rest
    else match shortEscape? b with
      | some c => .ok ([c], rest)
      | none => .error .malformed

/-- The bytes of a string up to its closing quote, after those already read in reverse. Every
step takes at least one byte, so the input is enough fuel. -/
def stringBytes : Bytes → Bytes → Reader Bytes
  | [], _, _ => .error .truncated
  | _ :: _, _, [] => .error .truncated
  | _ :: fuel, read, b :: rest =>
    if b = 0x22 then .ok (read.reverse, rest)
    else if b = 0x5c then
      match escape rest with
      | .ok (bytes, rest) => stringBytes fuel (bytes.reverse ++ read) rest
      | .error fault => .error fault
    -- a control character may only stand there as an escape
    else if b < 0x20 then .error .malformed
    else stringBytes fuel (b :: read) rest

/-- A string after its opening quote. -/
def string : Reader String := fun input => do
  let (bytes, rest) ← stringBytes input [] input
  match Bytes.toText? bytes with
  | some text => return (text, rest)
  | none => .error .malformed

/-! ### Arrays and objects -/

/-- The items of an array after its bracket, each read by `item` into a state. Every round takes
at least one byte, so the input is enough fuel. -/
def itemLoop {σ : Type} (item : σ → Reader σ) : Bytes → σ → Reader σ
  | [], _, _ => .error .truncated
  | _ :: fuel, state, input =>
    match item state input with
    | .error fault => .error fault
    | .ok (state, rest) =>
      match skipSpace rest with
      | [] => .error .truncated
      | b :: rest =>
        if b = 0x5d then .ok (state, rest)
        else if b = 0x2c then itemLoop item fuel state rest
        else .error .malformed

/-- An array after its opening bracket. -/
def itemsWith {σ : Type} (item : σ → Reader σ) (start : σ) : Reader σ := fun input =>
  match skipSpace input with
  | [] => .error .truncated
  | b :: rest =>
    if b = 0x5d then .ok (start, rest) else itemLoop item (b :: rest) start (b :: rest)

/-- The quote that opens the name of a member. -/
def openName (input : Bytes) : Except Fault Bytes :=
  match skipSpace input with
  | [] => .error .truncated
  | b :: rest => if b = 0x22 then .ok rest else .error .malformed

/-- The members of an object, each read by `member` from the opening quote of its name on. -/
def memberLoop {σ : Type} (member : σ → Reader σ) : Bytes → σ → Reader σ
  | [], _, _ => .error .truncated
  | _ :: fuel, state, input =>
    match (do member state (← openName input)) with
    | .error fault => .error fault
    | .ok (state, rest) =>
      match skipSpace rest with
      | [] => .error .truncated
      | b :: rest =>
        if b = 0x7d then .ok (state, rest)
        else if b = 0x2c then memberLoop member fuel state rest
        else .error .malformed

/-- An object after its opening brace. -/
def membersWith {σ : Type} (member : σ → Reader σ) (start : σ) : Reader σ := fun input =>
  match skipSpace input with
  | [] => .error .truncated
  | b :: rest =>
    if b = 0x7d then .ok (start, rest) else memberLoop member (b :: rest) start (b :: rest)

/-- The colon between a name and its value. -/
def colon (input : Bytes) : Except Fault Bytes :=
  match skipSpace input with
  | [] => .error .truncated
  | b :: rest => if b = 0x3a then .ok rest else .error .malformed

/-! ### Values -/

/-- A value, given what to do after the opening bracket of an array and the brace of an object. -/
def valueWith (array object : Reader Json) : Reader Json := fun input =>
  match skipSpace input with
  | [] => .error .truncated
  | b :: rest =>
    -- the first letter tells which of the three words must follow
    if b = 0x6e then (word [0x75, 0x6c, 0x6c] rest).map fun rest => (.null, rest)
    else if b = 0x74 then (word [0x72, 0x75, 0x65] rest).map fun rest => (.bool true, rest)
    else if b = 0x66 then (word [0x61, 0x6c, 0x73, 0x65] rest).map fun rest => (.bool false, rest)
    else if b = 0x2d then number true rest
    else if isDigit b then number false (b :: rest)
    else if b = 0x22 then (string rest).map fun (text, rest) => (.str text, rest)
    else if b = 0x5b then array rest
    else if b = 0x7b then object rest
    else .error .malformed

/-- A reader that always fails. -/
def refuse {α : Type} (fault : Fault) : Reader α := fun _ => .error fault

/-- A member with its name, put before those already read. -/
def memberOf (value : Reader Json) (read : List (String × Json)) : Reader (List (String × Json)) :=
  fun input => do
    let (name, rest) ← string input
    let (value, rest) ← value (← colon rest)
    return ((name, value) :: read, rest)

/-- An item, put before those already read. -/
def itemOf (value : Reader Json) (read : List Json) : Reader (List Json) := fun input =>
  (value input).map fun (item, rest) => (item :: read, rest)

/-- A value in which at most `depth` brackets are open at once, as it stands in the text. -/
def value : Nat → Reader Json
  | 0 => valueWith (refuse .malformed) (refuse .malformed)
  | depth + 1 =>
    valueWith
      (fun input => (itemsWith (itemOf (value depth)) [] input).map fun (items, rest) =>
        (.arr items.reverse, rest))
      (fun input => (membersWith (memberOf (value depth)) [] input).map fun (members, rest) =>
        (.obj members.reverse, rest))

/-- The greatest number of brackets that may be open at once. -/
def nestingLimit : Nat := 127

/-- Nothing but space may follow. -/
def finish {α : Type} : α × Bytes → Except Fault α
  | (result, rest) => if (skipSpace rest).isEmpty then .ok result else .error .malformed

/-- The value of a whole text, as it stands there. -/
def parseTree (text : Bytes) : Except Fault Json := do finish (← value nestingLimit text)

/-- The document of a whole text. -/
def parse (text : Bytes) : Except Fault Json := (parseTree text).map canonical

end FieldVault.Json
