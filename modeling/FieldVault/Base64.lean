import FieldVault.Bytes

/-!
# Base64 text

The standard alphabet with required padding. Reading is strict: padding must be present and
exact, the unused bits of the last digit must be zero, and nothing outside the alphabet is
accepted. Three bytes are one number of 24 bits, written as four digits of six bits each.
-/

set_option autoImplicit false

namespace FieldVault.Base64

/-- The digit of a value below 64. -/
def digit (n : Nat) : Char :=
  Char.ofNat <|
    if n < 26 then 65 + n
    else if n < 52 then 71 + n
    else if n < 62 then n - 4
    else if n = 62 then 43 else 47

/-- The value of a digit of the alphabet. -/
def value? (c : Char) : Option Nat :=
  if 'A' ≤ c ∧ c ≤ 'Z' then some (c.toNat - 65)
  else if 'a' ≤ c ∧ c ≤ 'z' then some (c.toNat - 71)
  else if '0' ≤ c ∧ c ≤ '9' then some (c.toNat + 4)
  else if c = '+' then some 62
  else if c = '/' then some 63
  else none

/-- The digits of a byte string, padded to a multiple of four. -/
def encodeChars : Bytes → List Char
  | [] => []
  | [a] =>
    let n := a.toNat * 16
    [digit (n / 64), digit (n % 64), '=', '=']
  | [a, b] =>
    let n := (a.toNat * 256 + b.toNat) * 4
    [digit (n / 4096), digit (n / 64 % 64), digit (n % 64), '=']
  | a :: b :: c :: rest =>
    let n := (a.toNat * 256 + b.toNat) * 256 + c.toNat
    digit (n / 262144) :: digit (n / 4096 % 64) :: digit (n / 64 % 64) :: digit (n % 64)
      :: encodeChars rest

/-- The base64 text of a byte string. -/
def encode (bytes : Bytes) : String := String.ofList (encodeChars bytes)

/-- The single byte of a last group of two digits; the four unused bits must be zero. -/
def lastByte? (p q : Char) : Option Bytes := do
  let n := (← value? p) * 64 + (← value? q)
  if n % 16 = 0 then some [UInt8.ofNat (n / 16)] else none

/-- The two bytes of a last group of three digits; the two unused bits must be zero. -/
def lastTwoBytes? (p q r : Char) : Option Bytes := do
  let n := ((← value? p) * 64 + (← value? q)) * 64 + (← value? r)
  if n % 4 = 0 then some [UInt8.ofNat (n / 1024), UInt8.ofNat (n / 4 % 256)] else none

/-- The three bytes of a full group of four digits. -/
def group? (p q r s : Char) : Option Bytes := do
  let n := (((← value? p) * 64 + (← value? q)) * 64 + (← value? r)) * 64 + (← value? s)
  some [UInt8.ofNat (n / 65536), UInt8.ofNat (n / 256 % 256), UInt8.ofNat (n % 256)]

/-- The bytes that a list of digits and padding stands for. -/
def decodeChars? : List Char → Option Bytes
  | [] => some []
  | [p, q, '=', '='] => lastByte? p q
  | [p, q, r, '='] => lastTwoBytes? p q r
  | p :: q :: r :: s :: rest => do
    let head ← group? p q r s
    let tail ← decodeChars? rest
    some (head ++ tail)
  | _ => none

/-- The byte string whose base64 text is given, if it is one. -/
def decode? (text : String) : Option Bytes := decodeChars? text.toList

end FieldVault.Base64
