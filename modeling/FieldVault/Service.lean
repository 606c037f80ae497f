import FieldVault.Document.Collection
import FieldVault.Http.Exchange
import FieldVault.Http.Route
import FieldVault.Lifecycle
import FieldVault.Master
import FieldVault.Message
import FieldVault.Resolver
import FieldVault.Text

/-!
# The service

The service encrypts and decrypts single values, hashes content, and stores documents with their
configured fields encrypted. Requests are answered one after the other, each with a scope of its
own; a request that is refused changes nothing that is stored.
-/

set_option autoImplicit false

namespace FieldVault

open Document (Collection Stored)
open Http (Request Response Route)
open Wipe (ValueId)

/-- The state of the service. -/
structure Service where
  vault : Vault
  master : MasterHolder
  /-- The collections, by the name they are registered under. -/
  collections : List (String × Collection)
  resolver : Resolver
  /-- Whether a digest is recorded for every stored document and checked on reading. -/
  integrity : Bool
  /-- The size above which content is hashed as a stream. -/
  threshold : Nat
  /-- The identifiers of documents to come, with the number issued. -/
  ids : Nat → Uuid
  issued : Nat

/-- A computation on the service. -/
abbrev ServiceM := StateM Service

/-- A computation on the service that may refuse the request. -/
abbrev Handler := ExceptT ServiceFault ServiceM

/-- A computation on the vault of the service. -/
instance : MonadLift VaultM ServiceM where
  monadLift work := fun service =>
    let (result, vault) := work service.vault
    (result, { service with vault := vault })

namespace Service

/-- A service without a master secret, over collections by name. -/
def new (vault : Vault) (collections : List (String × Collection)) (integrity : Bool)
    (threshold : Nat) (ids : Nat → Uuid) : Service :=
  ⟨vault, .empty, collections, .new (collections.map fun (name, c) => (name, c.entity)),
    integrity, threshold, ids, 0⟩

/-- The cipher of the service. -/
def cipher : FieldCipher := .standard

/-- Set the master secret. -/
def setMaster (secret : String) : ServiceM (Except MasterHolder.Fault Unit) := do
  match ← ((← get).master.set secret : VaultM _) with
  | .error fault => return .error fault
  | .ok holder =>
    modify fun service => { service with master := holder }
    return .ok ()

/-- The collection registered under a name. -/
def collection? (service : Service) (name : String) : Option Collection :=
  service.collections.lookup name

/-- The service with the collection of a name replaced. -/
def setCollection (service : Service) (name : String) (c : Collection) : Service :=
  { service with
    collections := service.collections.map fun (other, old) =>
      if other = name then (other, c) else (other, old) }

/-- Store a document in a collection under a fresh identifier. -/
def insertDocument (name : String) (document : Stored) : ServiceM Uuid := do
  let service ← get
  let id := service.ids service.issued
  match service.collection? name with
  | none => return id
  | some c =>
    set { service.setCollection name (c.insert id document) with issued := service.issued + 1 }
    return id

/-- A copy of the master secret tracked by the scope. -/
def masterSecret (scope : ScopeId) : Handler ValueId := do
  match ← ((← get).master.copy scope : VaultM _) with
  | .ok secret => return secret
  | .error fault => throw (.unavailable fault.message)

/-- The name and the collection that keep an entity type. -/
def repository (entity : String) : Handler (String × Collection) := do
  let (result, resolver) := (← get).resolver.resolve entity
  modify fun service => { service with resolver := resolver }
  match result with
  | .error fault => throw (.notFound fault.message)
  | .ok name =>
    match (← get).collection? name with
    | some c => return (name, c)
    | none => throw (.notFound (Resolver.Fault.noRepository entity).message)

/-- A context must hold something else than white space. -/
def requireContext (context : String) : Handler Unit :=
  if Text.isBlank context then throw (.badRequest "context must not be empty") else pure ()

/-- A guarded value given up. -/
def release (id : ValueId) : ServiceM Unit := (Vault.release id : VaultM Unit)

/-- Encrypt one value under the master secret. -/
def encrypt (scope : ScopeId) (request : EncryptRequest) : Handler Response := do
  requireContext request.context
  let plaintext ← (Vault.create (.text request.plaintext) : VaultM ValueId)
  let _ ← (Vault.mark scope (.one plaintext) : VaultM Nat)
  let secret ← masterSecret scope
  let text := (← get).vault.text plaintext
  match ← (cipher.tryEncryptText scope secret request.context text : VaultM _) with
  | .error _ => throw (.encryptionFailure "encryption failed")
  | .ok envelope =>
    -- on every other way out the end of the scope wipes both
    release plaintext
    release secret
    return .json 200 (Message.encode (EncryptResponse.mk envelope))

/-- Decrypt one envelope under the master secret; what cannot be decrypted is given back. -/
def decrypt (scope : ScopeId) (request : DecryptRequest) : Handler Response := do
  requireContext request.context
  let secret ← masterSecret scope
  let plaintext ←
    (cipher.decryptText scope secret request.context request.envelope : VaultM ValueId)
  let text := (← get).vault.text plaintext
  release plaintext
  release secret
  return .json 200 (Message.encode (DecryptResponse.mk text))

/-- Hash the body of a request. -/
def hash (body : Bytes) : Handler Response := do
  let digest := ContentDigest.auto body (← get).threshold
  return .json 200 (Message.encode (HashResponse.mk digest))

/-- The digest of a document. -/
def digestOf (payload : Json) : Handler String := do
  match Document.digest? payload (← get).threshold with
  | .error fault => throw (.internal fault.message)
  | .ok digest => return digest

/-- The digest to record for a document, if digests are recorded. -/
def recordDigest (payload : Json) : Handler (Option String) := do
  if (← get).integrity then return some (← digestOf payload) else return none

/-- Whether a stored document still has the digest recorded for it, as far as that is checked. -/
def checkDigest (document : Stored) : Handler Bool := do
  if (← get).integrity then
    match document.digest with
    | none => return true
    | some expected => return (← digestOf document.payload) = expected
  else return true

/-- Encrypt the configured fields of a document and store it. -/
def store (scope : ScopeId) (entity : String) (request : StoreDocumentRequest) :
    Handler Response := do
  let (name, c) ← repository entity
  -- an unknown entity type is told first, then a payload that is no object, then a missing secret
  if !request.payload.isObject then throw (.badRequest "document must be a JSON object")
  let secret ← masterSecret scope
  -- fields encrypted before the first fault are lost with the copy of the document
  let (payload, result) ← (c.sealDocument cipher scope secret request.payload : VaultM _)
  match result with
  | .error _ => throw (.encryptionFailure "encryption failed")
  | .ok _ =>
    release secret
    let digest ← recordDigest payload
    let id ← (insertDocument name ⟨payload, digest⟩ : ServiceM Uuid)
    return .json 201 (Message.encode (StoreDocumentResponse.mk id.toText))

/-- Check a stored document, decrypt its fields and give it out. -/
def fetch (scope : ScopeId) (entity given : String) : Handler Response := do
  match Uuid.parse? given with
  | none => throw (.badRequest ("invalid document id: " ++ given))
  | some id =>
    let (_, c) ← repository entity
    match c.get? id with
    | none => throw (.notFound (entity ++ " document " ++ id.toText))
    | some document =>
      -- the digest is that of the stored form, so it is checked before anything is decrypted
      if !(← checkDigest document) then
        (Vault.report (.digestMismatch entity) : VaultM Unit)
        throw (.integrityFailure (entity ++ " document " ++ id.toText ++ " was modified"))
      let secret ← masterSecret scope
      let (payload, _) ← (c.openDocument cipher scope secret document.payload : VaultM _)
      release secret
      return .json 200 (Message.encode (DocumentResponse.mk id.toText payload))

/-- Say how the service is: ready once the master secret is set. -/
def health : Handler Response := do
  let service ← get
  let ready := service.master.isReady
  let response : HealthResponse :=
    ⟨if ready then "ok" else "degraded", ready, service.resolver.registered⟩
  return .json (if ready then 200 else 503) (Message.encode response)

/-- The answer to a request for nothing the service has. -/
def unknownResource : Response :=
  .json 404 (Message.encode
    (ErrorResponse.mk "not_found" "the requested resource does not exist"))

/-- The answer to a refused request. -/
def refusal (fault : ServiceFault) : Response := .json fault.status (Message.encode fault.response)

/-- The greatest size of a body. -/
def bodyLimit : Nat := 2097152

/-- The message in the body of a request, or the answer if there is none to be read. -/
def readMessage {α : Type} [Message α] (request : Request) : Except Response α :=
  if !(request.contentType.any Http.isJsonType) then
    .error (.plain 415 "the content type is not JSON")
  else if bodyLimit < request.body.length then .error (.plain 413 "the body is too long")
  else match (Message.read : Json.Reader α) request.body with
    -- what follows the message in the body is not looked at
    | .ok (message, _) => .ok message
    | .error .mismatch => .error (.plain 422 "the body is JSON of another shape")
    | .error _ => .error (.plain 400 "the body is not JSON")

/-- The text of a captured part of the path, or the answer if it is none. -/
def readPart (part : String) : Except Response String :=
  match Http.decodePart? part with
  | some text => .ok text
  | none => .error (.plain 400 "the path is not valid UTF-8")

/-- The answer of a handler to what was read from a request. -/
def answer {α : Type} (read : Except Response α) (handler : α → Handler Response) :
    ServiceM Response := do
  match read with
  | .error response => return response
  | .ok input =>
    match ← (handler input).run with
    | .ok response => return response
    | .error fault => return refusal fault

/-- The answer to a request for a route by its own method. -/
def dispatch (scope : ScopeId) (request : Request) : Route → ServiceM Response
  | .encrypt => answer (readMessage request) (encrypt scope)
  | .decrypt => answer (readMessage request) (decrypt scope)
  | .hash =>
    answer
      (if bodyLimit < request.body.length then .error (.plain 413 "the body is too long")
        else .ok request.body) hash
  | .store entity =>
    answer (do return (← readPart entity, ← readMessage request))
      fun (entity, message) => store scope entity message
  | .fetch entity id =>
    answer (do return (← readPart entity, ← readPart id))
      fun (entity, id) => fetch scope entity id
  | .health => answer (.ok ()) fun () => health

/-- The answer to a request with a given scope. -/
def respond (request : Request) (scope : ScopeId) : ServiceM Response := do
  match Route.ofTarget? request.target with
  | none => return unknownResource
  | some route =>
    match route.access request.method with
    | .refused => return .empty 405
    | .full => dispatch scope request route
    | .head => return (← dispatch scope request route).head

/-- The answer to a request. -/
def handle (request : Request) : ServiceM Response := withScope (respond request)

end Service

end FieldVault
