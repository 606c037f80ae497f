import FieldVault.Envelope
import FieldVault.Hkdf
import FieldVault.Vault

/-!
# Encryption of fields

A field is encrypted under a key of its own, derived from a secret, the context of the field and
the label of the cipher. The key is a guarded value of the scope at hand, is used once, and is
destroyed before the call returns, however it ends. Decryption comes in a strict form, which
says what failed, and a plain form, which returns the input unchanged and reports the failure.
-/

set_option autoImplicit false

namespace FieldVault

open Wipe (ValueId)

/-- A cipher with the label under which it derives keys. -/
structure FieldCipher where
  label : String

/-- The cipher with the label of field encryption. -/
def FieldCipher.standard : FieldCipher := ⟨"field-encryption-key"⟩

namespace Cipher

/-- Bytes in a key. -/
def keyBytes : Nat := 32

/-- The key of a secret for a context and a label. -/
def deriveKey? (secret : Bytes) (context label : String) : Option Bytes :=
  Hkdf.expand? (Hkdf.extract (Bytes.ofText context) secret) (Bytes.ofText label) keyBytes

end Cipher

namespace FieldCipher

open Cipher

/-- What is done with the key of a guarded value. -/
def useKey {α : Type} (id : ValueId) (op : Aes.Key → VaultM (Except Fault α)) :
    VaultM (Except Fault α) := do
  match (← get).key? id with
  | none => return .error .keyDestroyed
  | some bytes =>
    match Aes.Key.ofBytes? bytes with
    | none => return .error .invalidKeyLength
    | some key => op key

/-- What is done with the key derived for a context: the secret and the key are tracked by the
scope, and the key is destroyed and given up before the result is returned. -/
def withKey {α : Type} (cipher : FieldCipher) (scope : ScopeId) (secret : ValueId)
    (context : String) (op : Aes.Key → VaultM (Except Fault α)) : VaultM (Except Fault α) := do
  let _ ← Vault.mark scope (.one secret)
  match deriveKey? (Bytes.ofText ((← get).text secret)) context cipher.label with
  | none => return .error .keyDerivation
  | some bytes =>
    let key ← Vault.create (.key (some bytes))
    let _ ← Vault.mark scope (.one key)
    -- whatever comes of it, the key goes before the result is returned
    let result ← useKey key op
    Vault.destroy key
    Vault.release key
    return result

/-- The envelope of a plaintext under a key and the next nonce. -/
def sealWith (plaintext : Bytes) (key : Aes.Key) : VaultM (Except Fault Envelope) := do
  -- a nonce is used up even if the encryption fails
  let nonce ← Vault.drawNonce
  match Gcm.encrypt? key nonce plaintext with
  | none => return .error .aeadFailure
  | some ciphertext => return .ok ⟨nonce, ciphertext⟩

/-- The plaintext of an envelope under a key. -/
def openWith (envelope : Envelope) (key : Aes.Key) : VaultM (Except Fault Bytes) :=
  match Gcm.decrypt? key envelope.nonce envelope.ciphertext with
  | none => return .error .aeadFailure
  | some plaintext => return .ok plaintext

/-- Encrypt bytes, or say what failed. -/
def tryEncrypt (cipher : FieldCipher) (scope : ScopeId) (secret : ValueId) (context : String)
    (plaintext : Bytes) : VaultM (Except Fault Bytes) := do
  return (← cipher.withKey scope secret context (sealWith plaintext)).map Envelope.toBytes

/-- Encrypt a text into a base64 envelope, or say what failed. -/
def tryEncryptText (cipher : FieldCipher) (scope : ScopeId) (secret : ValueId)
    (context plaintext : String) : VaultM (Except Fault String) := do
  match ← cipher.tryEncrypt scope secret context (Bytes.ofText plaintext) with
  | .error fault => return .error fault
  | .ok bytes => return (Envelope.ofBytes bytes).map Envelope.toBase64

/-- Encrypt bytes; on failure the result is empty and the failure is reported. -/
def encrypt (cipher : FieldCipher) (scope : ScopeId) (secret : ValueId) (context : String)
    (plaintext : Bytes) : VaultM Bytes := do
  match ← cipher.tryEncrypt scope secret context plaintext with
  | .ok envelope => return envelope
  | .error fault =>
    Vault.report (.encryptionFailed context plaintext.length fault)
    return []

/-- Encrypt a text; on failure the result is empty and the failure is reported. -/
def encryptText (cipher : FieldCipher) (scope : ScopeId) (secret : ValueId)
    (context plaintext : String) : VaultM String := do
  match ← cipher.tryEncryptText scope secret context plaintext with
  | .ok envelope => return envelope
  | .error fault =>
    Vault.report (.encryptionFailed context (Bytes.ofText plaintext).length fault)
    return ""

/-- A new guarded value that the scope tracks. -/
def createTracked (scope : ScopeId) (contents : Contents) : VaultM ValueId := do
  let id ← Vault.create contents
  let _ ← Vault.mark scope (.one id)
  return id

/-- Decrypt an envelope into a guarded value tracked by the scope, or say what failed. -/
def tryDecrypt (cipher : FieldCipher) (scope : ScopeId) (secret : ValueId) (context : String)
    (envelope : Bytes) : VaultM (Except Fault ValueId) := do
  match Envelope.ofBytes envelope with
  | .error fault => return .error fault
  | .ok parsed =>
    match ← cipher.withKey scope secret context (openWith parsed) with
    | .error fault => return .error fault
    | .ok plaintext => return .ok (← createTracked scope (.bytes plaintext))

/-- Decrypt a base64 envelope into a guarded text tracked by the scope, or say what failed. The
decrypted bytes are a guarded value of their own, given up before the call returns. -/
def tryDecryptText (cipher : FieldCipher) (scope : ScopeId) (secret : ValueId)
    (context envelope : String) : VaultM (Except Fault ValueId) := do
  match Envelope.ofBase64 envelope with
  | .error fault => return .error fault
  | .ok parsed =>
    match ← cipher.tryDecrypt scope secret context parsed.toBytes with
    | .error fault => return .error fault
    | .ok bytes =>
      -- the text is taken while the decrypted bytes still have their handle
      let text := Bytes.toText? ((← get).bytes bytes)
      let result ← match text with
        | none => pure (.error .invalidUtf8)
        | some text => do pure (.ok (← createTracked scope (.text text)))
      Vault.release bytes
      return result

/-- Decrypt an envelope; on failure the result is the envelope itself and the failure is
reported. The result is a guarded value tracked by the scope. -/
def decrypt (cipher : FieldCipher) (scope : ScopeId) (secret : ValueId) (context : String)
    (envelope : Bytes) : VaultM ValueId := do
  match ← cipher.tryDecrypt scope secret context envelope with
  | .ok plaintext => return plaintext
  | .error fault =>
    Vault.report (.decryptionFailed context envelope.length fault)
    createTracked scope (.bytes envelope)

/-- Decrypt a base64 envelope; on failure the result is the envelope itself and the failure is
reported. The result is a guarded text tracked by the scope. -/
def decryptText (cipher : FieldCipher) (scope : ScopeId) (secret : ValueId)
    (context envelope : String) : VaultM ValueId := do
  match ← cipher.tryDecryptText scope secret context envelope with
  | .ok plaintext => return plaintext
  | .error fault =>
    Vault.report (.decryptionFailed context (Bytes.ofText envelope).length fault)
    createTracked scope (.text envelope)

end FieldCipher

end FieldVault
