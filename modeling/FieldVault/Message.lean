import FieldVault.Json.Record
import FieldVault.Json.Writer

/-!
# Messages

The requests and answers of the service. Every message is a record: it says which members it
has, in which order they are written, and how they make up the message. Writing a message and
reading it back are defined once for all of them.
-/

set_option autoImplicit false

namespace FieldVault

open Json (FieldType FieldValue)

/-- The value of a member as JSON. -/
def Json.FieldValue.toJson : FieldValue → Json
  | .text s => .str s
  | .flag b => .bool b
  | .count n => .int n
  | .any v => v

/-- A type of messages. -/
class Message (α : Type) where
  /-- The members of a message, in order. -/
  fields : Json.Fields
  /-- The values of the members, in order. -/
  values : α → List FieldValue
  /-- The message with given values. -/
  ofValues? : List FieldValue → Option α

namespace Message

variable {α : Type} [Message α]

/-- A message as a JSON value, with its members in order. -/
def toJson (message : α) : Json :=
  .obj (((fields α).map Prod.fst).zip ((values message).map FieldValue.toJson))

/-- The compact JSON text of a message. -/
def encode (message : α) : Bytes := (toJson message).encode

/-- The message that values stand for. -/
def build (values : List FieldValue) : Except Json.Fault α :=
  match ofValues? values with
  | some message => .ok message
  | none => .error .mismatch

/-- A message at the front of a text. -/
def read : Json.Reader α := fun input => do
  let (values, rest) ← Json.record (fields α) input
  return (← build values, rest)

/-- The message that is a whole text. -/
def parse (text : Bytes) : Except Json.Fault α := do build (← Json.parseRecord (fields α) text)

end Message

/-- A value to encrypt, with its context. -/
structure EncryptRequest where
  context : String
  plaintext : String

/-- An encrypted value. -/
structure EncryptResponse where
  envelope : String

/-- A value to decrypt, with its context. -/
structure DecryptRequest where
  context : String
  envelope : String

/-- A decrypted value. -/
structure DecryptResponse where
  plaintext : String

/-- The digest of some content. -/
structure HashResponse where
  digest : String

/-- A document to store. -/
structure StoreDocumentRequest where
  payload : Json

/-- The identifier of a stored document. -/
structure StoreDocumentResponse where
  id : String

/-- A stored document. -/
structure DocumentResponse where
  id : String
  payload : Json

/-- What went wrong. -/
structure ErrorResponse where
  code : String
  message : String

/-- How the service is. -/
structure HealthResponse where
  status : String
  masterSecretReady : Bool
  repositories : Nat

instance : Message EncryptRequest where
  fields := [("context", .text), ("plaintext", .text)]
  values m := [.text m.context, .text m.plaintext]
  ofValues?
    | [.text context, .text plaintext] => some ⟨context, plaintext⟩
    | _ => none

instance : Message EncryptResponse where
  fields := [("envelope", .text)]
  values m := [.text m.envelope]
  ofValues?
    | [.text envelope] => some ⟨envelope⟩
    | _ => none

instance : Message DecryptRequest where
  fields := [("context", .text), ("envelope", .text)]
  values m := [.text m.context, .text m.envelope]
  ofValues?
    | [.text context, .text envelope] => some ⟨context, envelope⟩
    | _ => none

instance : Message DecryptResponse where
  fields := [("plaintext", .text)]
  values m := [.text m.plaintext]
  ofValues?
    | [.text plaintext] => some ⟨plaintext⟩
    | _ => none

instance : Message HashResponse where
  fields := [("digest", .text)]
  values m := [.text m.digest]
  ofValues?
    | [.text digest] => some ⟨digest⟩
    | _ => none

instance : Message StoreDocumentRequest where
  fields := [("payload", .any)]
  values m := [.any m.payload]
  ofValues?
    | [.any payload] => some ⟨payload⟩
    | _ => none

instance : Message StoreDocumentResponse where
  fields := [("id", .text)]
  values m := [.text m.id]
  ofValues?
    | [.text id] => some ⟨id⟩
    | _ => none

instance : Message DocumentResponse where
  fields := [("id", .text), ("payload", .any)]
  values m := [.text m.id, .any m.payload]
  ofValues?
    | [.text id, .any payload] => some ⟨id, payload⟩
    | _ => none

instance : Message ErrorResponse where
  fields := [("code", .text), ("message", .text)]
  values m := [.text m.code, .text m.message]
  ofValues?
    | [.text code, .text message] => some ⟨code, message⟩
    | _ => none

instance : Message HealthResponse where
  fields := [("status", .text), ("master_secret_ready", .flag), ("repositories", .count)]
  values m := [.text m.status, .flag m.masterSecretReady, .count m.repositories]
  ofValues?
    | [.text status, .flag ready, .count repositories] => some ⟨status, ready, repositories⟩
    | _ => none

/-- What a request is refused for. -/
inductive ServiceFault where
  | badRequest (text : String)
  | notFound (text : String)
  | integrityFailure (text : String)
  | encryptionFailure (text : String)
  | unavailable (text : String)
  | internal (text : String)
deriving DecidableEq

namespace ServiceFault

/-- The status with which a fault is answered. -/
def status : ServiceFault → Nat
  | .badRequest _ => 400
  | .notFound _ => 404
  | .integrityFailure _ => 409
  | .encryptionFailure _ => 500
  | .unavailable _ => 503
  | .internal _ => 500

/-- The name of the kind of fault. -/
def code : ServiceFault → String
  | .badRequest _ => "bad_request"
  | .notFound _ => "not_found"
  | .integrityFailure _ => "integrity_failure"
  | .encryptionFailure _ => "encryption_failure"
  | .unavailable _ => "service_unavailable"
  | .internal _ => "internal_error"

/-- The text of a fault. -/
def message : ServiceFault → String
  | .badRequest text => "bad request: " ++ text
  | .notFound text => "not found: " ++ text
  | .integrityFailure text => "integrity check failed: " ++ text
  | .encryptionFailure text => "encryption failure: " ++ text
  | .unavailable text => "service unavailable: " ++ text
  | .internal text => "internal error: " ++ text

/-- The message that tells of a fault. -/
def response (fault : ServiceFault) : ErrorResponse := ⟨fault.code, fault.message⟩

end ServiceFault

end FieldVault
