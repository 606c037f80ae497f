/-!
# Document identifiers

An identifier is a number of 128 bits. It is shown as 32 lowercase hexadecimal digits in groups
of 8, 4, 4, 4 and 12 joined by hyphens. It is read in that form, without the hyphens, after
`urn:uuid:` or in braces, with digits in either case.
-/

set_option autoImplicit false

namespace FieldVault

/-- An identifier of 128 bits. -/
abbrev Uuid := BitVec 128

namespace Uuid

/-- The lengths of the groups of digits. -/
def groups : List Nat := [8, 4, 4, 4, 12]

/-- The 32 hexadecimal digits of an identifier. -/
def digits (id : Uuid) : List Char :=
  let text := Nat.toDigits 16 id.toNat
  List.replicate (32 - text.length) '0' ++ text

/-- The digits cut into groups joined by hyphens. -/
def hyphenate : List Nat → List Char → List Char
  | [], text => text
  | [_], text => text
  | size :: sizes, text => text.take size ++ '-' :: hyphenate sizes (text.drop size)

/-- The text that shows an identifier. -/
def toText (id : Uuid) : String := String.ofList (hyphenate groups id.digits)

/-- The value of a hexadecimal digit in either case. -/
def digitValue? (c : Char) : Option Nat :=
  if '0' ≤ c ∧ c ≤ '9' then some (c.toNat - 48)
  else if 'a' ≤ c ∧ c ≤ 'f' then some (c.toNat - 87)
  else if 'A' ≤ c ∧ c ≤ 'F' then some (c.toNat - 55)
  else none

/-- The number written by hexadecimal digits. -/
def valueOf? : List Char → Nat → Option Nat
  | [], n => some n
  | c :: rest, n => do valueOf? rest (16 * n + (← digitValue? c))

/-- The identifier of exactly 32 digits. -/
def ofDigits? (text : List Char) : Option Uuid :=
  if text.length = 32 then (valueOf? text 0).map (BitVec.ofNat 128) else none

/-- The digits of groups joined by hyphens. -/
def unhyphenate? : List Nat → List Char → Option (List Char)
  | [], _ => none
  | [size], text => if text.length = size then some text else none
  | size :: sizes, text =>
    match text.drop size with
    | '-' :: rest => (unhyphenate? sizes rest).map (text.take size ++ ·)
    | _ => none

/-- The identifier of hyphenated digits. -/
def ofHyphenated? (text : List Char) : Option Uuid := (unhyphenate? groups text).bind ofDigits?

/-- The text after a word whose letters may have either case. -/
def afterWord? : List Char → List Char → Option (List Char)
  | [], text => some text
  | _ :: _, [] => none
  | w :: word, c :: text => if c.toLower = w then afterWord? word text else none

/-- The text inside braces. -/
def insideBraces? : List Char → Option (List Char)
  | '\x7b' :: rest =>
    match rest.reverse with
    | '\x7d' :: inner => some inner.reverse
    | _ => none
  | _ => none

/-- The identifier that a text denotes. -/
def parse? (text : String) : Option Uuid :=
  let text := text.toList
  -- no other form has 32 characters
  if text.length = 32 then ofDigits? text
  else match insideBraces? text with
    | some inner => ofHyphenated? inner
    | none =>
      match afterWord? "urn:uuid:".toList text with
      | some rest => ofHyphenated? rest
      | none => ofHyphenated? text

end Uuid

end FieldVault
