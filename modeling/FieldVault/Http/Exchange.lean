import FieldVault.Bytes

/-!
# Requests and answers

What passes between a client and the service, and the two readings of text that the service
needs for it: percent-encoding in paths and media types in headers.
-/

set_option autoImplicit false

namespace FieldVault.Http

/-- A request. -/
structure Request where
  method : String
  target : String
  contentType : Option String
  body : Bytes

/-- An answer. -/
structure Response where
  status : Nat
  contentType : Option String
  body : Bytes

namespace Response

/-- The media type of JSON answers. -/
def jsonType : String := "application/json"

/-- An answer without a body. -/
def empty (status : Nat) : Response := ⟨status, none, []⟩

/-- An answer in JSON. -/
def json (status : Nat) (body : Bytes) : Response := ⟨status, some jsonType, body⟩

/-- An answer in plain text. -/
def plain (status : Nat) (body : String) : Response :=
  ⟨status, some "text/plain", Bytes.ofText body⟩

/-- The answer to the same request by its head alone: no body. -/
def head (r : Response) : Response := { r with body := [] }

end Response

/-! ### Percent-encoding -/

/-- The value of a hexadecimal digit in either case. -/
def hexValue? (c : UInt8) : Option Nat :=
  if 0x30 ≤ c ∧ c ≤ 0x39 then some (c.toNat - 0x30)
  else if 0x61 ≤ c ∧ c ≤ 0x66 then some (c.toNat - 0x57)
  else if 0x41 ≤ c ∧ c ≤ 0x46 then some (c.toNat - 0x37)
  else none

/-- The byte that a percent sign with two digits stands for. -/
def escapedByte? (high low : UInt8) : Option UInt8 := do
  return UInt8.ofNat (16 * (← hexValue? high) + (← hexValue? low))

/-- The bytes with every well-formed escape replaced; any other percent sign stays. -/
def percentDecode : Bytes → Bytes
  | 0x25 :: high :: low :: rest =>
    match escapedByte? high low with
    | some b => b :: percentDecode rest
    | none => 0x25 :: percentDecode (high :: low :: rest)
  | b :: rest => b :: percentDecode rest
  | [] => []

/-- The text that a part of a path stands for. -/
def decodePart? (part : String) : Option String :=
  Bytes.toText? (percentDecode (Bytes.ofText part))

/-! ### Media types -/

/-- Whether a character may stand in a token of a header. -/
def isToken (c : Char) : Bool :=
  c.isAlphanum || "!#$%&'*+-.^_`|~".toList.contains c

/-- Whether a character may stand between quotes. There is no escape, and a quote directly after
the opening one does not close it. -/
def isQuotable (c : Char) : Bool := ' ' ≤ c && c ≤ '~'

/-- The parameters of a media type after a semicolon, as the automaton that checks them reads
them. -/
inductive ParameterState where
  /-- Space before a name. -/
  | space
  /-- Inside a name. -/
  | name
  /-- Just after the equals sign. -/
  | start
  /-- Inside a plain value. -/
  | plain
  /-- Just after an opening quote. -/
  | opened
  /-- Inside a quoted value. -/
  | quoted
  /-- After a closing quote. -/
  | closed

/-- The state after one more character, if it may stand there. -/
def ParameterState.step? : ParameterState → Char → Option ParameterState
  | .space, c => if c = ' ' then some .space else if isToken c then some .name else none
  | .name, c => if c = '=' then some .start else if isToken c then some .name else none
  | .start, c => if c = '"' then some .opened else if isToken c then some .plain else none
  | .plain, c => if c = ';' then some .space else if isToken c then some .plain else none
  | .opened, c => if isQuotable c then some .quoted else none
  | .quoted, c => if c = '"' then some .closed else if isQuotable c then some .quoted else none
  | .closed, c => if c = ';' then some .space else if c = ' ' then some .closed else none

/-- Whether the parameters may end in a state. -/
def ParameterState.isFinal : ParameterState → Bool
  | .space => true
  | .plain => true
  | .start => true
  | .closed => true
  | _ => false

/-- Whether characters continue parameters from a state to an end. -/
def validParameters : ParameterState → List Char → Bool
  | state, [] => state.isFinal
  | state, c :: rest =>
    match state.step? c with
    | some next => validParameters next rest
    | none => false

/-- The last part of a subtype behind a plus sign, and the part before it. -/
def splitSuffix (subtype : List Char) : List Char × Option (List Char) :=
  let reversed := subtype.reverse
  match reversed.dropWhile (· ≠ '+') with
  -- a plus sign at the front makes no suffix
  | _ :: before@(_ :: _) => (before.reverse, some (reversed.takeWhile (· ≠ '+')).reverse)
  | _ => (subtype, none)

/-- Whether a media type says that the body is JSON: `application/json` or any subtype of
`application` with the suffix `json`, in any case and with any well-formed parameters. -/
def isJsonType (contentType : String) : Bool :=
  let text := contentType.toList.map Char.toLower
  let type := text.takeWhile (· ≠ '/')
  let rest := (text.dropWhile (· ≠ '/')).drop 1
  let subtype := rest.takeWhile (· ≠ ';')
  let parameters := (rest.dropWhile (· ≠ ';')).drop 1
  let (essence, suffix) := splitSuffix subtype
  type = "application".toList && !subtype.isEmpty && subtype.all isToken
    && validParameters .space parameters
    && (essence = "json".toList || suffix = some "json".toList)

end FieldVault.Http
