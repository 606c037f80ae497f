import FieldVault.OpenApi.Outline

/-!
# OpenAPI descriptions

What is wanted of an OpenAPI description are its component schemas. The rest must have the
outline of such a description, and is then forgotten. The entities of a description are the
components it gives itself, each with the paths of its encrypted fields.
-/

set_option autoImplicit false

namespace FieldVault.OpenApi

open Document (PathSet)

/-- The component schemas of a description, in the order of their names, of which each has one. -/
structure Description where
  schemas : List (String × Schema)
  ordered : schemas.Pairwise fun a b => a.1 < b.1

/-- Entity types with the paths of their encrypted fields, in the order of the names. -/
abbrev Entities := List (String × PathSet)

namespace Description

/-- The entries of the mapping under a name. -/
def entriesAt (name : String) : Datum → List (Datum × Datum)
  | .mapping entries =>
    match Form.entriesNamed name entries with
    -- the outline lets no member stand there twice
    | (_, .mapping inner) :: _ => inner
    | _ => []
  | _ => []

/-- The description that a value of the outline stands for; of several schemas of one name the
last counts. -/
def ofDatum (value : Datum) : Description :=
  ⟨lastGiven ((entriesAt "schemas" (.mapping (entriesAt "components" value))).filterMap
    fun (key, schema) => do return (← key.text?, ← Schema.ofDatum? schema)), pairwise_lastGiven _⟩

/-- The description that is a whole JSON text. -/
def parseJson (text : Bytes) : Except Json.Fault Description := do
  return ofDatum (← Json.finish (← Outline.description.read Json.nestingLimit text))

/-- The description that is a whole YAML text. -/
def parseYaml? (text : String) : Option Description := do
  return ofDatum (← Outline.description.ofNode? (← Yaml.Node.ofText? text))

/-- The description of a text in YAML, or else in JSON. -/
def parse? (text : String) : Option Description :=
  (parseYaml? text).or (parseJson (Bytes.ofText text)).toOption

/-- Whether a schema is given in the description itself. -/
def isInline : Schema → Bool
  | .reference => false
  | _ => true

/-- The entity types of a description. -/
def entities (d : Description) : Entities :=
  lastGiven ((d.schemas.filter fun entry => isInline entry.2).map fun (name, schema) =>
    (name, schema.encryptedPaths))

end Description

end FieldVault.OpenApi
