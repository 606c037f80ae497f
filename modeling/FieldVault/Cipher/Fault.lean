/-!
# What can go wrong with an envelope

The ways in which encryption and decryption of a field fail, with their texts.
-/

set_option autoImplicit false

namespace FieldVault.Cipher

/-- Why a field could not be encrypted or decrypted. -/
inductive Fault where
  /-- The envelope has too few bytes for a nonce and a tag. -/
  | invalidEnvelope (length : Nat)
  /-- The text is not the base64 form of any bytes. -/
  | encoding
  /-- No key could be derived. -/
  | keyDerivation
  /-- The derived key was destroyed before it was used. -/
  | keyDestroyed
  /-- The derived key has the wrong length. -/
  | invalidKeyLength
  /-- The plaintext is too long, or the tag is not that of the ciphertext. -/
  | aeadFailure
  /-- The decrypted bytes are not text. -/
  | invalidUtf8
deriving DecidableEq, Repr

/-- The text of a fault. -/
def Fault.message : Fault → String
  | .invalidEnvelope length => "invalid envelope: " ++ toString length ++ " bytes"
  | .encoding => "invalid envelope encoding"
  | .keyDerivation => "key derivation failed"
  | .keyDestroyed => "key material already destroyed"
  | .invalidKeyLength => "invalid key length"
  | .aeadFailure => "aead operation failed"
  | .invalidUtf8 => "decrypted text is not valid UTF-8"

end FieldVault.Cipher
