import FieldVault.Datum
import FieldVault.Json.Record
import FieldVault.Yaml.Value

/-!
# Forms of values

A form says which shape a part of a description must have. Whether a datum has it, is said by
`Form.accepts`. The outer parts of a description are not read as data first: in JSON text the
first fault met decides (`Form.read`), and in YAML any scalar may stand for a text and nothing at
all for a list or mapping (`Form.ofNode?`). Either way the result holds what the form knows.
-/

set_option autoImplicit false

namespace FieldVault.OpenApi

open Json (Reader)

/-- The shape of a value. -/
inductive Form where
  | text
  | flag
  | number
  | count
  /-- Any JSON. -/
  | json
  /-- One of some words. -/
  | word (names : List String)
  | whole (accepts : Datum → Bool)
  /-- A value that may be null. -/
  | optional (form : Form)
  | list (item : Form)
  /-- A mapping with values of one form. -/
  | dictionary (item : Form)
  /-- A mapping with given members, some of which it must have. It has at least one of `choices`,
  if there are any, and the first of them counts. A family is a set of keys whose values have one
  form. Other members are passed over, but those whose names mark them as extensions are JSON. -/
  | record (required : List String) (members choices : List (String × Form))
    (families : List ((Datum → Bool) × Form))
  /-- A reference, or a value of a form. -/
  | reference (item : Form)
  /-- A mapping of which one member says which form the others have together. -/
  | tagged (name : String) (forms : List (String × Form))

namespace Form

/-- Entries with the given name as their key. -/
def entriesNamed (name : String) (entries : List (Datum × Datum)) : List (Datum × Datum) :=
  entries.filter fun entry => entry.1.text? = some name

/-- Whether some entry has the given name. -/
def hasEntry (entries : List (Datum × Datum)) (name : String) : Bool :=
  entries.any fun entry => entry.1.text? = some name

/-- Whether a key is one of some names, or the position of one. -/
def isNameOrPosition (names : List String) : Datum → Bool
  | .text name => names.contains name
  | .natural n => n < names.length
  | _ => false

/-- The name by which references give their target. -/
def referenceName : String := "$ref"

/-- Whether entries stand for a reference: exactly one of them gives its target as a text. -/
def isReference (entries : List (Datum × Datum)) : Bool :=
  entries.all (fun entry => entry.1.isMemberKey) &&
    match entries.filter fun entry => isNameOrPosition [referenceName] entry.1 with
    | [(_, target)] => target.isText
    | _ => false

/-- Whether a name marks a member as an extension. -/
def isExtension (name : String) : Bool := name.startsWith "x-"

/-- Whether the extensions among entries are JSON. -/
def extensionsAreJson (entries : List (Datum × Datum)) : Bool :=
  entries.all fun (key, value) => !(key.text?.any isExtension) || value.isJson

/-- Whether a value is one of some words; a word may also be the key of null. -/
def isWord (names : List String) : Datum → Bool
  | .text name => names.contains name
  | .mapping [(key, value)] => isNameOrPosition names key && value.isNull
  | _ => false

/-- The part of a record that its known members leave: whether the extensions are JSON, every
entry is right in the families of its key, and the first entry that is a choice is right. -/
def restIsRight (choice? : String → Datum → Option Bool) (isRight : Datum → Datum → Bool)
    (otherwise : Bool) (entries : List (Datum × Datum)) : Bool :=
  extensionsAreJson entries && entries.all (fun (key, value) => isRight key value) &&
    (entries.findSome? fun (key, value) => key.text?.bind fun name => choice? name value).getD
      otherwise

mutual

/-- Whether a value has a form. -/
def accepts : Form → Datum → Bool
  | .text, value => value.isText
  | .flag, value => value.isBool
  | .number, value => value.isNumber
  | .count, value => value.isCount
  | .json, value => value.isJson
  | .word names, value => isWord names value
  | .whole accepts, value => accepts value
  | .optional form, value => value.isNull || accepts form value
  | .list item, .list values => values.all (accepts item)
  | .list _, _ => false
  | .dictionary item, .mapping entries =>
    entries.all fun (key, value) => key.isText && accepts item value
  | .dictionary _, _ => false
  | .record required members choices families, .mapping entries =>
    required.all (hasEntry entries) &&
      members.all (fun (name, _) => (entriesNamed name entries).length ≤ 1) &&
      entries.all (fun (key, value) =>
        key.isMemberKey && (key.text?.bind fun name => named? name value members).getD true) &&
      restIsRight (fun name value => named? name value choices)
        (fun key value => acceptsAmong key value families) choices.isEmpty entries
  | .record .., _ => false
  | .reference item, value =>
    (match value with
      | .mapping entries => isReference entries
      | _ => false) || accepts item value
  | .tagged name forms, .mapping entries =>
    match entriesNamed name entries with
    | [(_, .text choice)] =>
      (named? choice (.mapping (entries.filter fun entry => entry.1.text? ≠ some name)) forms).getD
        false
    | [(_, .natural position)] =>
      (nth? position (.mapping (entries.filter fun entry => entry.1.text? ≠ some name)) forms).getD
        false
    | _ => false
  | .tagged .., _ => false

/-- Whether a value has the form that a list gives to a name, if it gives one. -/
def named? (name : String) (value : Datum) : List (String × Form) → Option Bool
  | [] => none
  | (other, form) :: rest =>
    if name = other then some (accepts form value) else named? name value rest

/-- Whether a value has the form at a position of a list, if there is one. -/
def nth? : Nat → Datum → List (String × Form) → Option Bool
  | _, _, [] => none
  | 0, value, (_, form) :: _ => some (accepts form value)
  | position + 1, value, _ :: rest => nth? position value rest

/-- Whether a value has the forms of all families that its key belongs to. -/
def acceptsAmong (key value : Datum) : List ((Datum → Bool) × Form) → Bool
  | [] => true
  | (covers, form) :: rest => (!covers key || accepts form value) && acceptsAmong key value rest

end

/-- Whether a value that has a form is read as a whole before it is looked at. -/
def ofWhole? (form : Form) (value : Datum) : Option Datum :=
  if form.accepts value then some value else none

/-- The entries of a record that are known, given those and the rest in reverse, if they are
right together. -/
def ofEntries? (required : List String) (choices : List (String × Form))
    (families : List ((Datum → Bool) × Form)) (known rest : List (Datum × Datum)) :
    Option Datum :=
  if required.all (hasEntry known) ∧
      restIsRight (fun name value => named? name value choices)
        (fun key value => acceptsAmong key value families) choices.isEmpty rest.reverse then
    some (.mapping known.reverse)
  else none

/-! ### Reading JSON -/

/-- An object whose members are read by `member` into a state; `depth` brackets may be open at
once. -/
def readObject {σ : Type} (depth : Nat) (member : σ → Reader σ) (start : σ) : Reader σ :=
  fun input =>
    match Json.skipSpace input with
    | [] => .error .truncated
    | b :: rest =>
      -- a bracket too many is a fault of the text, any other token one of shape
      if b = 0x7b then
        if depth = 0 then .error .malformed else Json.membersWith member start rest
      else Json.scalar (fun _ => none) (b :: rest)

/-- An array whose items are read by `item` into a state. -/
def readArray {σ : Type} (depth : Nat) (item : σ → Reader σ) (start : σ) : Reader σ :=
  fun input =>
    match Json.skipSpace input with
    | [] => .error .truncated
    | b :: rest =>
      if b = 0x5b then
        if depth = 0 then .error .malformed else Json.itemsWith item start rest
      else Json.scalar (fun _ => none) (b :: rest)

/-- A text. -/
def readText : Reader Datum := Json.scalar fun value =>
  match value with
  | .str content => some (.text content)
  | _ => none

/-- An entry whose name has been read, put before others. -/
def readEntry (value : Reader Datum) (name : String) (read : List (Datum × Datum)) :
    Reader (List (Datum × Datum)) := fun input => do
  let (value, rest) ← value (← Json.colon input)
  return ((.text name, value) :: read, rest)

/-- Any JSON as a datum. -/
def readDatum (depth : Nat) : Reader Datum := fun input =>
  (Json.value depth input).map fun (value, rest) => (.ofJson value, rest)

/-- A result, or else a fault of shape. -/
def orMismatch {α : Type} (result : Option α) (rest : Bytes) : Except Json.Fault (α × Bytes) :=
  match result with
  | some value => .ok (value, rest)
  | none => .error .mismatch

mutual

/-- A value of a form at the front of a text, when `depth` brackets may still be opened. -/
def read (depth : Nat) : Form → Reader Datum
  | .text => readText
  | .optional form => fun input =>
    match Json.skipSpace input with
    | [] => .error .truncated
    | b :: rest =>
      if b = 0x6e then (Json.word [0x75, 0x6c, 0x6c] rest).map fun rest => (.null, rest)
      else read depth form (b :: rest)
  | .list item => fun input =>
    (readArray depth (fun items input =>
      (read (depth - 1) item input).map fun (value, rest) => (value :: items, rest)) []
        input).map fun (items, rest) => (.list items.reverse, rest)
  | .dictionary item => fun input =>
    (readObject depth (fun entries input => do
      let (name, rest) ← Json.string input
      readEntry (read (depth - 1) item) name entries rest) [] input).map fun (entries, rest) =>
        (.mapping entries.reverse, rest)
  | .record required members choices families => fun input => do
    let ((known, others), rest) ← readObject depth (fun (known, others) input => do
      let (name, rest) ← Json.string input
      match readNamed? (depth - 1) name members with
      | none =>
        let (others, rest) ← readEntry (readDatum (depth - 1)) name others rest
        return ((known, others), rest)
      | some value =>
        -- a known member may not be given twice; others are kept as often as they come
        if hasEntry known name then throw .mismatch
        else
          let (known, rest) ← readEntry value name known rest
          return ((known, others), rest)) ([], []) input
    orMismatch (ofEntries? required choices families known others) rest
  | form => fun input => do
    let (value, rest) ← readDatum depth input
    orMismatch (ofWhole? form value) rest

/-- The reader of the form that a list gives to a name. -/
def readNamed? (depth : Nat) (name : String) : List (String × Form) → Option (Reader Datum)
  | [] => none
  | (other, form) :: rest =>
    if name = other then some (read depth form) else readNamed? depth name rest

end

/-! ### Taking from YAML -/

mutual

/-- The value of a form that a node stands for. -/
def ofNode? : Form → Yaml.Node → Option Datum
  | .text, node => node.text?.map .text
  | .optional form, node => do if ← node.isAbsent? then return .null else ofNode? form node
  | .list item, node => do return .list (← (← node.items?).mapM (ofNode? item))
  | .dictionary item, node => do
    return .mapping (← (← node.entries?).mapM fun (key, value) => do
      return (.text (← key.text?), ← ofNode? item value))
  | .record required members choices families, node => do
    let (known, others) ← (← node.entries?).foldlM (fun (known, others) (key, value) => do
      let name ← key.text?
      match namedOfNode? name value members with
      | none => return (known, (.text name, ← value.datum?) :: others)
      | some value =>
        if hasEntry known name then none
        else return ((.text name, ← value) :: known, others)) ([], [])
    ofEntries? required choices families known others
  | form, node => node.datum?.bind (ofWhole? form)

/-- The value that a node stands for by the form that a list gives to a name, if it gives one. -/
def namedOfNode? (name : String) (node : Yaml.Node) :
    List (String × Form) → Option (Option Datum)
  | [] => none
  | (other, form) :: rest =>
    if name = other then some (ofNode? form node) else namedOfNode? name node rest

end

end Form

end FieldVault.OpenApi
