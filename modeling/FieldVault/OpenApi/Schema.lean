import FieldVault.Document.PathSet
import FieldVault.OpenApi.Form

/-!
# Schemas of entities

A schema describes the values of an entity type as far as the search for encrypted fields looks:
the properties of objects, the items of arrays, and the marking that says that a field is
encrypted. A schema is an object or an array only if it says so and says nothing that belongs to
another kind; what is neither is not looked into. `encryptedPaths` gives the paths of the marked
fields.
-/

set_option autoImplicit false

namespace FieldVault.OpenApi

open Document (PathSet)

/-- A schema, with the value of its marking if it has one. -/
inductive Schema where
  /-- A schema given elsewhere. -/
  | reference
  | object (marking : Option Datum) (properties : List (String × Schema))
  | array (marking : Option Datum) (items : Schema)
  /-- A schema of any other kind, or an array whose items are not described. -/
  | other (marking : Option Datum)

namespace Schema

/-- The name under which a schema says that its field is encrypted. -/
def markingName : String := "x-encrypted"

/-- The marking of a schema. -/
def marking? : Schema → Option Datum
  | .reference => none
  | .object marking _ => marking
  | .array marking _ => marking
  | .other marking => marking

/-- Whether a schema is marked as encrypted: its marking is the truth value true. -/
def isEncrypted (schema : Schema) : Bool :=
  match schema.marking? with
  | some (.bool true) => true
  | _ => false

/-- The path of a property of the value at a path. -/
def propertyPath (base name : String) : String := if base = "" then name else base ++ "." ++ name

/-- The path of the items of the array at a path. -/
def itemsPath (base : String) : String := base ++ "[]"

mutual

/-- The paths of the marked fields of the value at a path, in the order they are found. The items
of an array that stands at no path are themselves no field. -/
def markedPaths (base : String) : Schema → List String
  | .object _ properties => markedProperties base properties
  | .array _ items =>
    let path := itemsPath base
    (if items.isEncrypted ∧ base ≠ "" then [path] else []) ++ markedPaths path items
  | .reference => []
  | .other _ => []

/-- The paths of the marked fields among properties and below them. -/
def markedProperties (base : String) : List (String × Schema) → List String
  | [] => []
  | (name, schema) :: rest =>
    let path := propertyPath base name
    (if schema.isEncrypted then [path] else []) ++ markedPaths path schema
      ++ markedProperties base rest

end

/-- The paths of the encrypted fields of an entity. -/
def encryptedPaths (schema : Schema) : PathSet := .ofList (markedPaths "" schema)

end Schema

/-! ### Keywords -/

/-- What a keyword of a schema takes. -/
inductive Keyword where
  /-- A value that holds no schema. -/
  | simple (form : Form)
  | schema
  | schemas
  | schemaList
  | schemaOrFlag

/-- A record that has members of certain forms, some of which it must have. -/
def Form.members (required : List String) (members : List (String × Form)) : Form :=
  .record required members [] []

/-- The form of a pointer to documentation. -/
def externalDocsForm : Form :=
  .members ["url"] [("url", .text), ("description", .optional .text)]

/-- The form of a rule that tells apart the schemas of one kind. -/
def discriminatorForm : Form :=
  .members ["propertyName"] [("propertyName", .text), ("mapping", .dictionary .text)]

/-- A keyword that may be null. -/
def Keyword.optional (form : Form) : Keyword := .simple (.optional form)

/-- The keywords of a schema. -/
def keywords : List (String × Keyword) := [
  ("type", .optional .text), ("pattern", .optional .text), ("multipleOf", .optional .number),
  ("exclusiveMinimum", .optional .flag), ("exclusiveMaximum", .optional .flag),
  ("minimum", .optional .number), ("maximum", .optional .number), ("properties", .schemas),
  ("required", .optional (.list .text)), ("additionalProperties", .schemaOrFlag),
  ("minProperties", .optional .count), ("maxProperties", .optional .count), ("items", .schema),
  ("minItems", .optional .count), ("maxItems", .optional .count),
  ("uniqueItems", .optional .flag), ("enum", .optional (.list .json)),
  ("format", .optional .text), ("minLength", .optional .count), ("maxLength", .optional .count),
  ("oneOf", .schemaList), ("allOf", .schemaList), ("anyOf", .schemaList), ("not", .schema),
  ("nullable", .simple .flag), ("readOnly", .simple .flag), ("writeOnly", .simple .flag),
  ("deprecated", .simple .flag), ("externalDocs", .optional externalDocsForm),
  ("example", .optional .json), ("title", .optional .text), ("description", .optional .text),
  ("discriminator", .optional discriminatorForm), ("default", .optional .json)]

/-- The keywords that belong to no array and to no object. -/
def foreignKeywords : List String :=
  ["pattern", "multipleOf", "exclusiveMinimum", "exclusiveMaximum", "minimum", "maximum", "enum",
    "format", "minLength", "maxLength", "oneOf", "allOf", "anyOf", "not"]

/-- The keywords that belong to arrays alone. -/
def arrayKeywords : List String := ["items", "minItems", "maxItems", "uniqueItems"]

/-- The keywords that belong to objects alone. -/
def objectKeywords : List String :=
  ["properties", "required", "additionalProperties", "minProperties", "maxProperties"]

/-- What a member of a schema says. -/
inductive Part where
  /-- The name of the type. -/
  | type (name : String)
  | properties (schemas : List (String × Schema))
  | items (schema : Schema)
  /-- A keyword that only matters by being there. -/
  | present
  | marking (value : Datum)
  /-- A member without meaning, or a keyword that is null. -/
  | nothing

/-- Whether a member says anything. -/
def Part.isPresent : Part → Bool
  | .nothing => false
  | _ => true

/-- What a keyword that holds no schema says with a value. -/
def Part.ofValue (name : String) : Datum → Part
  | .null => .nothing
  | .text content => if name = "type" then .type content else .present
  | _ => .present

/-- What a member that is no keyword says; an extension must be JSON. -/
def Part.ofExtension? (name : String) (value : Datum) : Option Part :=
  if Form.isExtension name ∧ !value.isJson then none
  else some (if name = Schema.markingName then .marking value else .nothing)

/-- Whether no keyword is given twice. -/
def hasDistinctKeywords (entries : List (Datum × Datum)) : Bool :=
  keywords.all fun (name, _) => (Form.entriesNamed name entries).length ≤ 1

/-- Whether any of some keywords is present. -/
def anyPresent (names : List String) (parts : List (String × Part)) : Bool :=
  parts.any fun (name, part) => names.contains name && part.isPresent

/-- The name of the type, if it is given. -/
def typeName? : List (String × Part) → Option String
  | [] => none
  | (_, .type name) :: _ => some name
  | _ :: rest => typeName? rest

/-- The properties, if they are given. -/
def propertiesOf : List (String × Part) → List (String × Schema)
  | [] => []
  | (_, .properties schemas) :: _ => schemas
  | _ :: rest => propertiesOf rest

/-- The schema of the items, if it is given. -/
def itemsOf? : List (String × Part) → Option Schema
  | [] => none
  | ("items", .items schema) :: _ => some schema
  | _ :: rest => itemsOf? rest

/-- The marking, the last one given. -/
def markingOf? : List (String × Part) → Option Datum
  | [] => none
  | (_, .marking value) :: rest => (markingOf? rest).or (some value)
  | _ :: rest => markingOf? rest

/-- The schema that the parts of it make up. -/
def Schema.ofParts (parts : List (String × Part)) : Schema :=
  let marking := markingOf? parts
  -- a keyword of another kind outweighs the name of the type
  if typeName? parts = some "object" ∧ !anyPresent (foreignKeywords ++ arrayKeywords) parts then
    .object marking (propertiesOf parts)
  else if typeName? parts = some "array" ∧ !anyPresent (foreignKeywords ++ objectKeywords) parts
  then
    match itemsOf? parts with
    | some items => .array marking items
    | none => .other marking
  else .other marking

/-- The entries of an association list with the last one given for each name. -/
def lastGiven {α : Type} (entries : List (String × α)) : List (String × α) :=
  entries.foldl (fun kept (name, value) => Json.insertMember name value kept) []

/-- The entries last given are in the order of their names, so each name has one. -/
theorem pairwise_lastGiven {α : Type} (entries : List (String × α)) :
    (lastGiven entries).Pairwise fun a b => a.1 < b.1 := by
  -- the induction is on the entries, for whatever was kept before them
  suffices h : ∀ kept : List (String × α), (kept.Pairwise fun a b => a.1 < b.1) →
      (entries.foldl (fun kept (name, value) => Json.insertMember name value kept) kept).Pairwise
        fun a b => a.1 < b.1 from h [] .nil
  induction entries with
  | nil => exact fun kept hkept => hkept
  | cons first rest ih => exact fun kept hkept => ih _ (Json.pairwise_insertMember hkept)

mutual

/-- The schema that a value describes. -/
def Schema.ofDatum? : Datum → Option Schema
  | .mapping entries =>
    if Form.isReference entries then some .reference
    else if !hasDistinctKeywords entries then none
    else (partsOf? [] entries).map Schema.ofParts
  | _ => none

/-- What the entries of a schema say, after others that are given in reverse, if the value of
every keyword suits it. An entry without a name says nothing. -/
def partsOf? (read : List (String × Part)) :
    List (Datum × Datum) → Option (List (String × Part))
  | [] => some read.reverse
  | (key, value) :: rest =>
    match key with
    | .text name =>
      match partOf? name value with
      | none => none
      | some part => partsOf? ((name, part) :: read) rest
    | .natural _ => partsOf? read rest
    | _ => none

/-- What a member of a schema says. -/
def partOf? (name : String) (value : Datum) : Option Part :=
  match Json.lookup? name keywords with
  | none => Part.ofExtension? name value
  | some (.simple form) => if form.accepts value then some (Part.ofValue name value) else none
  -- any other keyword holds schemas, and says nothing if it is null
  | some keyword =>
    match value with
    | .null => some .nothing
    | .mapping entries =>
      match keyword with
      | .schemas => (schemasOf? [] entries).map fun schemas => .properties (lastGiven schemas)
      | .schema => (Schema.ofDatum? (.mapping entries)).map .items
      | .schemaOrFlag => (Schema.ofDatum? (.mapping entries)).map fun _ => .present
      | _ => none
    | .list items =>
      match keyword with
      | .schemaList => if areSchemas items then some .present else none
      | _ => none
    | .bool _ =>
      match keyword with
      | .schemaOrFlag => some .present
      | _ => none
    | _ => none

/-- The schemas that named values describe, after others that are given in reverse. -/
def schemasOf? (read : List (String × Schema)) :
    List (Datum × Datum) → Option (List (String × Schema))
  | [] => some read.reverse
  | (key, value) :: rest =>
    match key, Schema.ofDatum? value with
    | .text name, some schema => schemasOf? ((name, schema) :: read) rest
    | _, _ => none

/-- Whether all values describe schemas. -/
def areSchemas : List Datum → Bool
  | [] => true
  | value :: rest => (Schema.ofDatum? value).isSome && areSchemas rest

end

end FieldVault.OpenApi
