import FieldVault.Event
import FieldVault.OpenApi.Description

/-!
# Schema directories

The entity types of a service are described by the schema files of a directory: those with the
extension `yaml`, `yml` or `json`. Every schema file must be readable, and no two may describe
the same entity type. The order in which the files are listed does not matter for what is loaded.
-/

set_option autoImplicit false

namespace FieldVault.OpenApi

open Document (PathSet)

/-- What stands under a name of a directory. -/
inductive EntryContent where
  | file (content : Bytes)
  | directory

/-- An entry of a directory. -/
structure Entry where
  name : String
  content : EntryContent

namespace Directory

/-- Why a directory could not be loaded. -/
inductive Fault where
  | notListed
  | unreadable (name : String)
  | malformed (name : String)
  | duplicateEntity (entity : String)
deriving DecidableEq

/-- The text of a fault of the directory at a path. -/
def Fault.message (path : String) : Fault → String
  | .notListed => "failed to list schema directory " ++ path
  | .unreadable name => "failed to read schema file " ++ path ++ "/" ++ name
  | .malformed name => "failed to parse OpenAPI schema " ++ path ++ "/" ++ name
  | .duplicateEntity entity => "entity type " ++ entity ++ " defined more than once"

/-- The extension of a file name: what follows its last point, if anything stands before that. -/
def extension? (name : String) : Option String :=
  let reversed := name.toList.reverse
  -- the pattern asks for the point and for a character before it
  match reversed.dropWhile (· ≠ '.') with
  | _ :: _ :: _ => some (String.ofList (reversed.takeWhile (· ≠ '.')).reverse)
  | _ => none

/-- Whether an entry is a schema file, going by its name. -/
def isSchemaFile (entry : Entry) : Bool :=
  match extension? entry.name with
  | some extension => ["yaml", "yml", "json"].contains extension
  | none => false

/-- The text of an entry. -/
def textOf (entry : Entry) : Except Fault String :=
  match entry.content with
  | .directory => .error (.unreadable entry.name)
  | .file content =>
    match Bytes.toText? content with
    | some text => .ok text
    | none => .error (.unreadable entry.name)

/-- The entity types that a schema file describes. -/
def entitiesOf (entry : Entry) : Except Fault Entities := do
  match Description.parse? (← textOf entry) with
  | some description => return description.entities
  | none => throw (.malformed entry.name)

/-- Entity types with others added, of which none may be known already. -/
def merge (known : Entities) : Entities → Except Fault Entities
  | [] => .ok known
  | (entity, paths) :: rest =>
    if (Json.lookup? entity known).isSome then .error (.duplicateEntity entity)
    else merge (Json.insertMember entity paths known) rest

/-- The entity types of schema files, with those already known. -/
def loadFiles (known : Entities) : List Entry → Except Fault Entities
  | [] => .ok known
  | entry :: rest => do loadFiles (← merge known (← entitiesOf entry)) rest

/-- The entity types of a directory, if it can be listed, and what is reported on the way. -/
def load (listing : Option (List Entry)) : Except Fault Entities × List Event :=
  match listing with
  | none => (.error .notListed, [])
  | some entries =>
    let files := entries.filter isSchemaFile
    match loadFiles [] files with
    | .error fault => (.error fault, [])
    | .ok entities => (.ok entities, if files.isEmpty then [.noSchemaFiles] else [])

end Directory

end FieldVault.OpenApi
