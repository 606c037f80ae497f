import FieldVault.Json.Reader

/-!
# Passing over JSON values

A record ignores members it does not know. Their values are passed over without being read:
only their outline has to be right, so nesting is not limited, numbers may be of any size and
strings need not be text.
-/

set_option autoImplicit false

namespace FieldVault.Json

/-- The rest after a string, from behind its opening quote: an escape must be one of the known
ones, but two units need not form a character. -/
def skipString : Bytes → Bytes → Except Fault Bytes
  | [], _ => .error .truncated
  | _ :: _, [] => .error .truncated
  | _ :: fuel, b :: rest =>
    if b = 0x22 then .ok rest
    else if b = 0x5c then
      match rest with
      | [] => .error .truncated
      | c :: rest =>
        if c = 0x75 then
          match hexUnit rest with
          | .ok (_, rest) => skipString fuel rest
          | .error fault => .error fault
        else if (shortEscape? c).isSome then skipString fuel rest
        else .error .malformed
    else if b < 0x20 then .error .malformed
    else skipString fuel rest

/-- The rest after the digits that must come next. -/
def skipDigits : Bytes → Except Fault Bytes
  | [] => .error .malformed
  | d :: rest => if isDigit d then .ok (rest.dropWhile isDigit) else .error .malformed

/-- The rest after an exponent, if there is one. -/
def skipExponent : Bytes → Except Fault Bytes
  | [] => .ok []
  | b :: rest =>
    if b = 0x65 ∨ b = 0x45 then
      match rest with
      | s :: digits => if s = 0x2b ∨ s = 0x2d then skipDigits digits else skipDigits rest
      | [] => .error .malformed
    else .ok (b :: rest)

/-- The rest after a fraction, if there is one, and an exponent. -/
def skipFraction : Bytes → Except Fault Bytes
  | [] => .ok []
  | b :: rest => if b = 0x2e then do skipExponent (← skipDigits rest) else skipExponent (b :: rest)

/-- The rest after a number, its sign apart; a number that ends too early is malformed. -/
def skipNumber : Bytes → Except Fault Bytes
  | [] => .error .malformed
  | b :: rest =>
    if b = 0x30 then
      match rest with
      | [] => .ok []
      | d :: _ => if isDigit d then .error .malformed else skipFraction rest
    else if isDigit b then skipFraction (rest.dropWhile isDigit)
    else .error .malformed

/-- A value, given what to do after the opening bracket of an array and the brace of an object. -/
def skipWith (array object : Reader Unit) : Reader Unit := fun input =>
  let skipped (rest : Except Fault Bytes) : Except Fault (Unit × Bytes) := rest.map fun r => ((), r)
  match skipSpace input with
  | [] => .error .truncated
  | b :: rest =>
    -- the first letter tells which of the three words must follow
    if b = 0x6e then skipped (word [0x75, 0x6c, 0x6c] rest)
    else if b = 0x74 then skipped (word [0x72, 0x75, 0x65] rest)
    else if b = 0x66 then skipped (word [0x61, 0x6c, 0x73, 0x65] rest)
    else if b = 0x2d then skipped (skipNumber rest)
    else if isDigit b then skipped (skipNumber (b :: rest))
    else if b = 0x22 then skipped (skipString rest rest)
    else if b = 0x5b then array rest
    else if b = 0x7b then object rest
    else .error .malformed

/-- A member with its name. -/
def skipMember (value : Reader Unit) : Reader Unit := fun input => do
  value (← colon (← skipString input input))

/-- The rest after a value in which no more brackets are open at once than `depth` has bytes. -/
def skipValue : Bytes → Reader Unit
  | [] => skipWith (refuse .truncated) (refuse .truncated)
  | _ :: depth =>
    skipWith (itemsWith (fun _ => skipValue depth) ())
      (membersWith (fun _ => skipMember (skipValue depth)) ())

/-- The rest after any value; no value has more open brackets than the input has bytes. -/
def skip : Reader Unit := fun input => skipValue input input

end FieldVault.Json
