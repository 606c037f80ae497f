import FieldVault.Json

/-!
# Data of unknown shape

A datum is what a document holds at some place before anyone asks what it should be. It is wider
than JSON: a mapping may have keys of any kind, and keeps every entry in the order given. An
integer written with a minus sign is told apart from one without, since only the latter can stand
for the position of a member. A datum is JSON if all its keys are texts.
-/

set_option autoImplicit false

namespace FieldVault

/-- A value of unknown shape. -/
inductive Datum where
  | null
  | bool (value : Bool)
  /-- An integer without a minus sign. -/
  | natural (value : Nat)
  /-- An integer with a minus sign. -/
  | signed (value : Int)
  | double (value : Binary64)
  | text (value : String)
  | list (items : List Datum)
  | mapping (entries : List (Datum × Datum))

namespace Datum

/-- Whether a datum is null. -/
def isNull : Datum → Bool
  | .null => true
  | _ => false

/-- Whether a datum is a text. -/
def isText : Datum → Bool
  | .text _ => true
  | _ => false

/-- Whether a datum is a truth value. -/
def isBool : Datum → Bool
  | .bool _ => true
  | _ => false

/-- Whether a datum is a number. -/
def isNumber : Datum → Bool
  | .natural _ => true
  | .signed _ => true
  | .double _ => true
  | _ => false

/-- Whether a datum is an integer that is not negative. -/
def isCount : Datum → Bool
  | .natural _ => true
  | .signed value => 0 ≤ value
  | _ => false

/-- The text of a datum, if it is one. -/
def text? : Datum → Option String
  | .text value => some value
  | _ => none

/-- Whether a datum can name a member of a record: by its name or by its position. -/
def isMemberKey : Datum → Bool
  | .text _ => true
  | .natural _ => true
  | _ => false

mutual

/-- Whether a datum is JSON. -/
def isJson : Datum → Bool
  | .list items => areJson items
  | .mapping entries => haveJson entries
  | _ => true

/-- Whether data are JSON. -/
def areJson : List Datum → Bool
  | [] => true
  | item :: rest => item.isJson && areJson rest

/-- Whether entries have texts for keys and JSON for values. -/
def haveJson : List (Datum × Datum) → Bool
  | [] => true
  | (key, value) :: rest => key.isText && value.isJson && haveJson rest

end

mutual

/-- A JSON value as a datum. -/
def ofJson : Json → Datum
  | .null => .null
  | .bool b => .bool b
  | .int i => if 0 ≤ i then .natural i.toNat else .signed i
  | .double x => .double x
  | .str s => .text s
  | .arr items => .list (ofItems items)
  | .obj members => .mapping (ofMembers members)

/-- JSON values as data. -/
def ofItems : List Json → List Datum
  | [] => []
  | item :: rest => ofJson item :: ofItems rest

/-- Members of a JSON object as entries. -/
def ofMembers : List (String × Json) → List (Datum × Datum)
  | [] => []
  | (name, value) :: rest => (.text name, ofJson value) :: ofMembers rest

end

end Datum

end FieldVault
