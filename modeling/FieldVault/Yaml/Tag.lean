import FieldVault.Bytes
import FieldVault.Yaml.Scalar.Quoted

/-!
# Tags in YAML text

A tag is written in full between angle brackets, or as a handle and a suffix. The handle is a
word between exclamation marks, of which directives say what it is short for; one exclamation
mark is a handle of its own. A suffix may hold escaped bytes, so a tag is a byte string.
-/

set_option autoImplicit false

namespace FieldVault.Yaml

/-- Whether a character may stand in the name of an anchor, a handle or a directive. -/
def isWordChar (c : Char) : Bool := c.isAlphanum || c = '_' || c = '-'

/-- Whether a character may stand in the suffix of a tag; in a tag that is written in full, and in
a directive, so may commas and square brackets. -/
def isTagChar (full : Bool) (c : Char) : Bool :=
  isWordChar c || ";/?:@&=+$.!~*'()".toList.contains c || (full && [',', '[', ']'].contains c)

/-- The byte that a percent sign with two digits stands for. -/
def escapedByte? : List Char → Option (Nat × List Char)
  | '%' :: high :: low :: rest => do return (16 * (← hexValue? high) + (← hexValue? low), rest)
  | _ => none

/-- How many bytes follow a byte that starts a character in UTF-8. -/
def followingBytes? (b : Nat) : Option Nat :=
  if b < 0x80 then some 0
  else if 0xc0 ≤ b ∧ b < 0xe0 then some 1
  else if 0xe0 ≤ b ∧ b < 0xf0 then some 2
  else if 0xf0 ≤ b ∧ b < 0xf8 then some 3
  else none

/-- Escaped bytes that follow the first of a character. -/
def escapedTail? : Nat → List Char → Option (Bytes × List Char)
  | 0, rest => some ([], rest)
  | count + 1, text => do
    let (b, rest) ← escapedByte? text
    if b < 0x80 ∨ 0xc0 ≤ b then none
    else
      let (bytes, rest) ← escapedTail? count rest
      return (UInt8.ofNat b :: bytes, rest)

/-- The escaped bytes of one character. -/
def escapedCharacter? (text : List Char) : Option (Bytes × List Char) := do
  let (b, rest) ← escapedByte? text
  let (bytes, rest) ← escapedTail? (← followingBytes? b) rest
  return (UInt8.ofNat b :: bytes, rest)

/-- The characters of a suffix, each with the bytes it stands for, added in reverse. Every round
takes a character, so the text is enough fuel. -/
def suffixBytes? (full : Bool) : List Char → Bytes → Cursor → Option (Bytes × Cursor)
  | [], read, cursor => some (read, cursor)
  | _ :: fuel, read, cursor =>
    match cursor.rest with
    | [] => some (read, cursor)
    | c :: _ =>
      if c = '%' then do
        let (bytes, rest) ← escapedCharacter? cursor.rest
        -- an escape is a percent sign and two digits for each byte
        let taken := cursor.rest.take (3 * bytes.length)
        suffixBytes? full fuel (bytes.reverse ++ read) (cursor.skip taken rest)
      else if isTagChar full c then
        suffixBytes? full fuel (UInt8.ofNat c.toNat :: read) cursor.next
      else some (read, cursor)

/-- A suffix, which goes on after `front` and ends where a byte zero would stand. Without a front
it may not be empty. -/
def tagSuffix? (full : Bool) (front : Option (List Char)) (cursor : Cursor) :
    Option (Bytes × Cursor) := do
  -- the exclamation mark of the front belongs to the handle
  let given := (front.getD []).drop 1
  let (read, after) ←
    suffixBytes? full cursor.rest (Bytes.ofText (String.ofList given)).reverse cursor
  if front.isNone ∧ read.isEmpty then none
  else return (read.reverse.takeWhile (· ≠ 0), after)

/-- A handle: an exclamation mark, a word, and another mark if there is one. -/
def tagHandle? (cursor : Cursor) : Option (List Char × Cursor) :=
  if !cursor.isAt '!' then none
  else
    let (word, after) := cursor.next.span isWordChar
    if after.isAt '!' then some ('!' :: word ++ ['!'], after.next) else some ('!' :: word, after)

/-- A tag as it is written: a handle, which is empty if the tag is given in full, and a suffix. -/
structure TagName where
  handle : Bytes
  suffix : Bytes
deriving DecidableEq

/-- The handle of tags that are not shared between programs. -/
def localHandle : Bytes := Bytes.ofText "!"

/-- A tag in full after its opening bracket. -/
def fullTag? (cursor : Cursor) : Option (TagName × Cursor) := do
  let (suffix, after) ← tagSuffix? true none cursor
  if after.isAt '>' then return (⟨[], suffix⟩, after.next) else none

/-- A tag with a handle. What looks like one but does not end in an exclamation mark is the start
of the suffix. -/
def shortTag? (cursor : Cursor) : Option (TagName × Cursor) := do
  let (handle, after) ← tagHandle? cursor
  if 1 < handle.length ∧ handle.getLast? = some '!' then
    let (suffix, after) ← tagSuffix? false none after
    return (⟨Bytes.ofText (String.ofList handle), suffix⟩, after)
  else
    let (suffix, after) ← tagSuffix? false (some handle) after
    if suffix.isEmpty then return (⟨[], localHandle⟩, after)
    else return (⟨localHandle, suffix⟩, after)

/-- The tag that starts here. It ends with a word, or within brackets with a comma. -/
def tag? (inFlow : Bool) (cursor : Cursor) : Option (TagName × Cursor) := do
  let (name, after) ←
    if cursor.next.isAt '<' then fullTag? cursor.next.next else shortTag? cursor
  if endsWord after.rest ∨ (inFlow ∧ after.isAt ',') then return (name, after) else none

/-- What a handle is short for, as a directive says it, and the rest of the directive. -/
def tagDirective? (cursor : Cursor) : Option ((Bytes × Bytes) × Cursor) := do
  let (handle, after) ← tagHandle? (cursor.skipWhile isBlank)
  if 1 < handle.length ∧ handle.getLast? ≠ some '!' then none
  else if !(after.head?.any isBlank) then none
  else
    let (expansion, after) ← tagSuffix? true none (after.skipWhile isBlank)
    if endsWord after.rest then return ((Bytes.ofText (String.ofList handle), expansion), after)
    else none

end FieldVault.Yaml
