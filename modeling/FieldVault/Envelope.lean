import FieldVault.Base64
import FieldVault.Cipher.Fault
import FieldVault.Gcm

/-!
# Envelopes

An envelope is what encryption makes of a plaintext: the nonce, and the ciphertext with its tag.
It travels as the two written one after the other, or as the base64 text of that. Every byte
string that is long enough is the form of exactly one envelope.
-/

set_option autoImplicit false

namespace FieldVault

/-- An encrypted value. -/
structure Envelope where
  nonce : Gcm.Nonce
  /-- The ciphertext followed by its tag. -/
  ciphertext : Bytes

namespace Envelope

/-- The least length of an envelope, that of an empty plaintext. -/
def minLength : Nat := Gcm.nonceBytes + Gcm.tagBytes

/-- The bytes of an envelope. -/
def toBytes (e : Envelope) : Bytes := e.nonce.bytes ++ e.ciphertext

/-- The envelope that a byte string is the form of. -/
def ofBytes (bytes : Bytes) : Except Cipher.Fault Envelope :=
  if h : minLength ≤ bytes.length then
    .ok ⟨⟨bytes.take Gcm.nonceBytes, by
      have : Gcm.nonceBytes ≤ minLength := Nat.le_add_right ..
      simp only [List.length_take]; omega⟩, bytes.drop Gcm.nonceBytes⟩
  else .error (.invalidEnvelope bytes.length)

/-- The base64 text of an envelope. -/
def toBase64 (e : Envelope) : String := Base64.encode e.toBytes

/-- The envelope that a text is the base64 form of. -/
def ofBase64 (text : String) : Except Cipher.Fault Envelope :=
  match Base64.decode? text with
  | some bytes => ofBytes bytes
  | none => .error .encoding

/-- Reading the bytes of an envelope gives those bytes back. -/
theorem toBytes_of_ofBytes {bytes : Bytes} {e : Envelope} (h : ofBytes bytes = .ok e) :
    e.toBytes = bytes := by
  unfold ofBytes at h
  split at h
  · cases h; simp [toBytes]
  · cases h

end Envelope

end FieldVault
