import FieldVault.Json.Skip

/-!
# Reading records

A record is an object with a fixed list of members, each of one type. Members may come in any
order, unknown ones are passed over, and none may be missing or given twice. An array with
exactly the members' values in the order of the list is accepted in place of the object. A fault
is reported where it is met: a wrong type before whatever follows it, a missing member at the
closing brace.
-/

set_option autoImplicit false

namespace FieldVault.Json

/-- The type of a member of a record. -/
inductive FieldType where
  | text
  | flag
  | count
  | any
deriving DecidableEq

/-- The value of a member of a record. -/
inductive FieldValue where
  | text (value : String)
  | flag (value : Bool)
  | count (value : Nat)
  | any (value : Json)

/-- The type of a value. -/
def FieldValue.type : FieldValue → FieldType
  | .text _ => .text
  | .flag _ => .flag
  | .count _ => .count
  | .any _ => .any

/-- The members of a record, in order. -/
abbrev Fields := List (String × FieldType)

/-- A value that is neither an array nor an object and that `accept` takes; another token is read
to its end before it is found to be of the wrong type. -/
def scalar {α : Type} (accept : Json → Option α) : Reader α := fun input => do
  let (value, rest) ← valueWith (refuse .mismatch) (refuse .mismatch) input
  match accept value with
  | some result => return (result, rest)
  | none => .error .mismatch

/-- The value of a member of the given type, in which at most `depth` brackets are open. -/
def fieldValue (depth : Nat) : FieldType → Reader FieldValue
  | .text => scalar fun
    | .str s => some (.text s)
    | _ => none
  | .flag => scalar fun
    | .bool b => some (.flag b)
    | _ => none
  | .count => scalar fun
    | .int i => if 0 ≤ i then some (.count i.toNat) else none
    | _ => none
  | .any => fun input => (value depth input).map fun (v, rest) => (.any v.canonical, rest)

/-- A member of a record, from behind the opening quote of its name, put before those already
read. -/
def recordMember (fields : Fields) (depth : Nat) (read : List (String × FieldValue)) :
    Reader (List (String × FieldValue)) := fun input => do
  let (name, rest) ← string input
  match lookup? name fields with
  | none =>
    let ((), rest) ← skip (← colon rest)
    return (read, rest)
  | some type =>
    if (lookup? name read).isSome then .error .mismatch
    else
      let (value, rest) ← fieldValue depth type (← colon rest)
      return ((name, value) :: read, rest)

/-- The values of all fields, in order, if none is missing. -/
def collect (read : List (String × FieldValue)) : Fields → Except Fault (List FieldValue)
  | [] => .ok []
  | (name, _) :: fields =>
    match lookup? name read with
    | none => .error .mismatch
    | some value => (collect read fields).map (value :: ·)

/-- The values of the fields given as items of an array, from behind its bracket; `first` tells
whether the first of them is still to come. -/
def recordItems (depth : Nat) : Bool → Fields → Reader (List FieldValue)
  | _, [] => fun input =>
    match skipSpace input with
    | [] => .error .truncated
    | b :: rest => if b = 0x5d then .ok ([], rest) else .error .malformed
  | first, (_, type) :: fields => fun input => do
    let input ← match skipSpace input with
      | [] => .error .truncated
      | b :: rest =>
        if b = 0x5d then .error .mismatch
        else if first then .ok (b :: rest)
        else if b = 0x2c then
          match skipSpace rest with
          | [] => .error .truncated
          | c :: _ => if c = 0x5d then .error .malformed else .ok rest
        else .error .malformed
    let (value, rest) ← fieldValue depth type input
    let (values, rest) ← recordItems depth false fields rest
    return (value :: values, rest)

/-- The values of the fields of a record, in order. -/
def record (fields : Fields) : Reader (List FieldValue) := fun input =>
  let depth := nestingLimit - 1
  match skipSpace input with
  | [] => .error .truncated
  | b :: rest =>
    if b = 0x7b then do
      let (read, rest) ← membersWith (recordMember fields depth) [] rest
      return (← collect read fields, rest)
    else if b = 0x5b then recordItems depth true fields rest
    else scalar (fun _ => none) (b :: rest)

/-- The values of the fields of a record that is a whole text. -/
def parseRecord (fields : Fields) (text : Bytes) : Except Fault (List FieldValue) := do
  finish (← record fields text)

end FieldVault.Json
