import FieldVault.Cipher.Fault

/-!
# Events

What is reported while the vault works. An event carries the circumstances of a failure and
never a secret, a plaintext or an envelope.
-/

set_option autoImplicit false

namespace FieldVault

/-- Something that went wrong and was reported. -/
inductive Event where
  /-- A field could not be encrypted; the empty envelope was returned. -/
  | encryptionFailed (context : String) (size : Nat) (fault : Cipher.Fault)
  /-- A field could not be decrypted; the input was returned. -/
  | decryptionFailed (context : String) (size : Nat) (fault : Cipher.Fault)
  /-- A scope was given up with tracked values; they were destroyed on the spot. -/
  | scopeDropped (tracked : Nat)
  /-- The digest of a stored document is not the recorded one. -/
  | digestMismatch (entity : String)
  /-- A schema directory holds no schema file. -/
  | noSchemaFiles
deriving DecidableEq

namespace Event

/-- The name of the cipher, as reports give it. -/
def algorithm : String := "AES-256-GCM"

/-- The text of an event. -/
def message : Event → String
  | .encryptionFailed .. => "field encryption failed; returning empty envelope"
  | .decryptionFailed .. => "field decryption failed; returning input unchanged"
  | .scopeDropped _ => "wipe scope dropped without flush; destroying tracked values inline"
  | .digestMismatch _ => "document digest mismatch"
  | .noSchemaFiles => "no schema files found"

/-- The fields of the report of a cipher failure. -/
def cipherFields (context : String) (size : Nat) (fault : Cipher.Fault) :
    List (String × String) :=
  [("algorithm", algorithm), ("context", context), ("size", toString size),
    ("error", fault.message)]

/-- The named circumstances of an event. -/
def fields : Event → List (String × String)
  | .encryptionFailed context size fault => cipherFields context size fault
  | .decryptionFailed context size fault => cipherFields context size fault
  | .scopeDropped tracked => [("tracked", toString tracked)]
  | .digestMismatch entity => [("entity", entity)]
  | .noSchemaFiles => []

end Event

end FieldVault
