import FieldVault.Binary64.Decimal
import FieldVault.Datum
import FieldVault.Yaml.Node

/-!
# Values of YAML nodes

A scalar is a text until it is asked for its value. A plain one may stand for null, a truth value
or a number; any other is a text. A tag of the core schema asks for one type. A tag that is not
shared between programs gives no value at all, and neither does an integer that needs more than
64 bits but no more than 128; a greater one is a double.
-/

set_option autoImplicit false

namespace FieldVault.Yaml

/-! ### Plain scalars -/

/-- Whether a text is a word for null. -/
def isNullWord (text : String) : Bool := ["~", "null", "Null", "NULL"].contains text

/-- The truth value that a text stands for. -/
def flag? (text : String) : Option Bool :=
  if ["true", "True", "TRUE"].contains text then some true
  else if ["false", "False", "FALSE"].contains text then some false
  else none

/-- A text without one plus sign at its front. -/
def stripPlus : List Char → List Char
  | '+' :: rest => rest
  | text => text

/-- A text without one sign at its front. -/
def stripSign : List Char → List Char
  | '-' :: rest => rest
  | text => stripPlus text

/-- Whether a text starts with a sign. -/
def startsWithSign (text : List Char) : Bool :=
  text.head? = some '-' || text.head? = some '+'

/-- Whether a text consists of digits after a leading zero, and so is no number. -/
def hasLeadingZero (text : List Char) : Bool :=
  match stripSign text with
  | '0' :: c :: rest => (c :: rest).all Binary64.isDigit
  | _ => false

/-- The first magnitude that no integer is asked for. -/
def magnitudeLimit : Nat := 1 <<< 128

/-- The number that digits in a base write, or the limit if it is beyond that. -/
def digitsIn? (base : Nat) (digits : List Char) : Option Nat :=
  if digits.isEmpty then none
  else digits.foldlM (fun n c => do
    let d ← hexValue? c
    if d < base then return min (base * n + d) magnitudeLimit else none) 0

/-- The magnitude that a text without a sign writes, in one of four bases. -/
def magnitude? : List Char → Option Nat
  | '0' :: 'x' :: digits => digitsIn? 16 digits
  | '0' :: 'o' :: digits => digitsIn? 8 digits
  | '0' :: 'b' :: digits => digitsIn? 2 digits
  | digits => if hasLeadingZero digits then none else digitsIn? 10 digits

/-- What a text says as an integer. -/
inductive Integer where
  | value (datum : Datum)
  /-- An integer that is neither held nor taken for a double. -/
  | refused
  | notOne

/-- The integer that a text stands for. -/
def integer (text : List Char) : Integer :=
  match text with
  | '-' :: rest =>
    match magnitude? rest with
    | none => .notOne
    | some n =>
      if n ≤ 1 <<< 63 then .value (.signed (-(n : Int)))
      else if n ≤ 1 <<< 127 then .refused
      else .notOne
  | _ =>
    match magnitude? (stripPlus text) with
    | none => .notOne
    | some n =>
      if n ≤ Binary64.maxWord then .value (.natural n)
      else if n < magnitudeLimit then .refused
      else .notOne

/-- The double that a text stands for. -/
def double? (text : String) : Option Binary64 :=
  let unsigned := stripPlus text.toList
  if [".inf", ".Inf", ".INF"].contains (String.ofList unsigned) then some (.infinity false)
  else if ["-.inf", "-.Inf", "-.INF"].contains text then some (.infinity true)
  else if [".nan", ".NaN", ".NAN"].contains text then some .notANumber
  else if text.toList.head? = some '+' ∧ startsWithSign unsigned then none
  else (Binary64.parse? (String.ofList unsigned)).filter Binary64.isFinite

/-- The value of a plain scalar. -/
def plainDatum? (text : String) : Option Datum :=
  if text.isEmpty ∨ isNullWord text then some .null
  else match flag? text with
    | some b => some (.bool b)
    | none =>
      match integer text.toList with
      | .value datum => some datum
      | .refused => none
      | .notOne =>
        -- digits after a zero would read as a double, but are kept as they are written
        if hasLeadingZero text.toList then some (.text text)
        else match double? text with
          | some x => some (.double x)
          | none => some (.text text)

/-! ### Tags -/

/-- A tag of the core schema. -/
def coreTag (name : String) : Bytes := Bytes.ofText ("tag:yaml.org,2002:" ++ name)

/-- Whether a tag starts with an exclamation mark. -/
def startsLocal (tag : Bytes) : Bool := tag.head? = some 0x21

/-- Whether a tag is not shared between programs. -/
def isLocal (tag : Bytes) : Bool := startsLocal tag && (Bytes.toText? (tag.drop 1)).isSome

/-- The value of a scalar with a tag. -/
def taggedDatum? (tag : Bytes) (isPlain : Bool) (text : String) : Option Datum :=
  if isLocal tag then none
  else if tag = coreTag "bool" then (flag? text).map .bool
  else if tag = coreTag "int" then
    match integer text.toList with
    | .value datum => some datum
    | _ => none
  else if tag = coreTag "float" then (double? text).map .double
  else if tag = coreTag "null" then (if isNullWord text then some .null else none)
  -- a tag that is not text after its mark is passed over
  else if startsLocal tag ∧ isPlain then plainDatum? text
  else some (.text text)

/-- The value of a scalar. -/
def scalarDatum? (tag : Option Bytes) (isPlain : Bool) (text : String) : Option Datum :=
  match tag with
  | some tag => taggedDatum? tag isPlain text
  | none => if isPlain then plainDatum? text else some (.text text)

namespace Node

mutual

/-- The value of a node. -/
def datum? : Node → Option Datum
  | .scalar tag isPlain text => scalarDatum? tag isPlain text
  | .list tag items => if tag.any isLocal then none else (itemsDatum? [] items).map .list
  | .mapping tag entries =>
    if tag.any isLocal then none else (entriesDatum? [] entries).map .mapping

/-- The values of items, after others that are given in reverse. -/
def itemsDatum? (read : List Datum) : List Node → Option (List Datum)
  | [] => some read.reverse
  | item :: rest =>
    match item.datum? with
    | none => none
    | some value => itemsDatum? (value :: read) rest

/-- The values of entries, after others that are given in reverse. -/
def entriesDatum? (read : List (Datum × Datum)) :
    List (Node × Node) → Option (List (Datum × Datum))
  | [] => some read.reverse
  | (key, value) :: rest =>
    match key.datum?, value.datum? with
    | some key, some value => entriesDatum? ((key, value) :: read) rest
    | _, _ => none

end

/-! ### Nodes whose type is known -/

/-- The text of a scalar, whatever its tag. -/
def text? : Node → Option String
  | .scalar _ _ text => some text
  | _ => none

/-- The items of a list; an empty plain scalar is a list without items. -/
def items? : Node → Option (List Node)
  | .list _ items => some items
  | .scalar _ true "" => some []
  | _ => none

/-- The entries of a mapping; an empty plain scalar is a mapping without entries. -/
def entries? : Node → Option (List (Node × Node))
  | .mapping _ entries => some entries
  | .scalar _ true "" => some []
  | _ => none

/-- Whether a node stands for the absence of a value; one that is tagged as null must. -/
def isAbsent? : Node → Option Bool
  | .scalar none true text => some (text.isEmpty || isNullWord text)
  | .scalar (some tag) true text =>
    if tag = coreTag "null" then (if isNullWord text then some true else none) else some false
  | _ => some false

end Node

end FieldVault.Yaml
