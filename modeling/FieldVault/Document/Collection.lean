import FieldVault.Cipher
import FieldVault.ContentDigest
import FieldVault.Document.Fields
import FieldVault.Document.PathSet
import FieldVault.Json.Writer
import FieldVault.Uuid

/-!
# Collections of documents

A collection holds the documents of one entity type and knows which of its fields are stored
encrypted. Each field is encrypted under the context made of the entity type and the path, and a
document keeps, if asked to, the digest of its stored form.
-/

set_option autoImplicit false

namespace FieldVault.Document

open Wipe (ValueId)

/-- A document as stored, with the digest recorded for it. -/
structure Stored where
  payload : Json
  digest : Option String

/-- The documents of one entity type. -/
structure Collection where
  entity : String
  /-- The paths of the encrypted fields. -/
  fields : PathSet
  documents : List (Uuid × Stored)

namespace Collection

/-- A collection without documents. -/
def new (entity : String) (paths : List String) : Collection := ⟨entity, .ofList paths, []⟩

/-- The context under which the field at a path is encrypted. -/
def fieldContext (c : Collection) (path : String) : String := c.entity ++ "." ++ path

/-- The document with every configured field encrypted; the number of fields, or the first
fault. -/
def sealDocument (c : Collection) (cipher : FieldCipher) (scope : ScopeId) (secret : ValueId)
    (document : Json) : VaultM (Json × Except Cipher.Fault Nat) :=
  forEachField (fun path leaf => cipher.tryEncryptText scope secret (c.fieldContext path) leaf)
    c.fields document

/-- A field decrypted, or left as it is; the guarded plaintext is given up. -/
def openField (c : Collection) (cipher : FieldCipher) (scope : ScopeId) (secret : ValueId)
    (path leaf : String) : VaultM (Except Empty String) := do
  let plaintext ← cipher.decryptText scope secret (c.fieldContext path) leaf
  -- the text is taken out before the handle goes
  let text := (← get).text plaintext
  Vault.release plaintext
  return .ok text

/-- The document with every configured field decrypted; the number of fields. -/
def openDocument (c : Collection) (cipher : FieldCipher) (scope : ScopeId) (secret : ValueId)
    (document : Json) : VaultM (Json × Nat) := do
  let (document, result) ← forEachField (c.openField cipher scope secret) c.fields document
  match result with
  | .ok n => return (document, n)
  | .error never => nomatch never

/-- The collection with a document stored under an identifier. -/
def insert (c : Collection) (id : Uuid) (document : Stored) : Collection :=
  { c with documents := (id, document) :: c.documents.filter fun entry => entry.1 != id }

/-- The document stored under an identifier. -/
def get? (c : Collection) (id : Uuid) : Option Stored := c.documents.lookup id

/-- The number of documents. -/
def size (c : Collection) : Nat := c.documents.length

end Collection

/-- The digest of a document: of its compact form, read as a source above the threshold. -/
def digest? (payload : Json) (threshold : Nat) : Except Json.WriteFault String := do
  return ContentDigest.auto (← payload.toBytes?) threshold

end FieldVault.Document
