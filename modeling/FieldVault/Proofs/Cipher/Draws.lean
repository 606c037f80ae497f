import FieldVault.Proofs.Cipher.Outcome
import FieldVault.Proofs.Vault.Draws

/-!
# Nonces of cipher calls

Every call that encrypts draws one nonce, and the envelope it gives starts with it; no nonce goes to
waste unless the plaintext is longer than AES-GCM allows. A call that decrypts draws none, however
it ends.
-/

set_option autoImplicit false

namespace FieldVault

open Vault
open Wipe (ValueId)

/-! ### Envelopes in results -/

namespace Envelope

/-- The envelope that a byte string is, as bytes. -/
def inBytes? (bytes : Bytes) : Option Bytes := (ofBytes bytes).toOption.map toBytes

/-- The envelope that a text is the base64 form of, as bytes. -/
def inText? (text : String) : Option Bytes := (ofBase64 text).toOption.map toBytes

theorem inBytes?_toBytes {e : Envelope} (h : Gcm.tagBytes ≤ e.ciphertext.length) :
    inBytes? e.toBytes = some e.toBytes := by
  rw [inBytes?, ofBytes_toBytes h]
  rfl

theorem inText?_toBase64 {e : Envelope} (h : Gcm.tagBytes ≤ e.ciphertext.length) :
    inText? e.toBase64 = some e.toBytes := by
  rw [inText?, ofBase64_toBase64 h]
  rfl

end Envelope

namespace FieldCipher

open Cipher

variable (cipher : FieldCipher) (scope : ScopeId) (secret : ValueId) (context : String) (v : Vault)

/-! ### Encryption -/

/-- An envelope carries the nonce that it was made with. -/
theorem nonce_of_sealed {cipher : FieldCipher} {secret context : String} {nonce : Gcm.Nonce}
    {plaintext : Bytes} {e : Envelope} (h : cipher.sealed secret context nonce plaintext = .ok e) :
    e.nonce = nonce := by
  unfold sealed sealedUnder at h
  split at h
  · cases h
  · cases h
    rfl

/-- The ciphertext of an envelope is longer than the plaintext by the tag. -/
theorem length_of_sealed {cipher : FieldCipher} {secret context : String} {nonce : Gcm.Nonce}
    {plaintext : Bytes} {e : Envelope} (h : cipher.sealed secret context nonce plaintext = .ok e) :
    e.ciphertext.length = plaintext.length + Gcm.tagBytes := by
  unfold sealed sealedUnder at h
  split at h
  · cases h
  · rename_i ciphertext hsome
    cases h
    exact Gcm.length_of_encrypt? hsome

/-- The envelope of a plaintext under the key of a field and the next nonce, as bytes. -/
def nextEnvelope (plaintext : Bytes) : Option Bytes :=
  (cipher.sealed (v.text secret) context (v.nonces v.drawn) plaintext).toOption.map
    Envelope.toBytes

/-- A plaintext within the limit has an envelope. -/
theorem isSome_nextEnvelope {plaintext : Bytes} (h : plaintext.length ≤ Gcm.plaintextLimit) :
    (cipher.nextEnvelope secret context v plaintext).isSome := by
  obtain ⟨e, hsealed, -, -⟩ :=
    cipher.exists_sealed (v.text secret) context (v.nonces v.drawn) h
  rw [nextEnvelope, hsealed]
  rfl

/-- Only a longer plaintext has none. -/
theorem nextEnvelope_eq_none_iff {plaintext : Bytes} :
    cipher.nextEnvelope secret context v plaintext = none ↔
      Gcm.plaintextLimit < plaintext.length := by
  constructor
  · intro hnone
    by_contra hlimit
    have hsome := cipher.isSome_nextEnvelope secret context v (Nat.le_of_not_lt hlimit)
    rw [hnone] at hsome
    cases hsome
  · intro hlong
    rw [nextEnvelope, cipher.sealed_of_lt _ _ _ hlong]
    rfl

/-- The nonce that is drawn is the one of the envelope. -/
theorem draws_nextEnvelope (plaintext : Bytes) :
    Draws [cipher.nextEnvelope secret context v plaintext] v
      (v.spendKey scope secret).afterDraw := by
  have hspent : Draws [] v (v.spendKey scope secret) := .none_of_eq rfl rfl
  refine hspent.trans (Draws.one fun envelope h => ?_)
  obtain ⟨e, hsealed, rfl⟩ := Option.map_eq_some_iff.1 h
  cases hresult : cipher.sealed (v.text secret) context (v.nonces v.drawn) plaintext with
  | error fault =>
    rw [hresult] at hsealed
    cases hsealed
  | ok made =>
    rw [hresult] at hsealed
    cases hsealed
    rw [leading, Envelope.take_toBytes, nonce_of_sealed hresult]
    rfl

/-- What the strict form of encryption gives is the envelope, if there is one. -/
theorem tryEncrypt_result (plaintext : Bytes) :
    ((cipher.tryEncrypt scope secret context plaintext).run v).1.toOption.bind Envelope.inBytes? =
      cipher.nextEnvelope secret context v plaintext := by
  rw [tryEncrypt_run, nextEnvelope]
  cases hsealed : cipher.sealed (v.text secret) context (v.nonces v.drawn) plaintext with
  | error fault => rfl
  | ok e => exact Envelope.inBytes?_toBytes (tagBytes_le_of_sealed hsealed)

theorem tryEncryptText_result (plaintext : String) :
    ((cipher.tryEncryptText scope secret context plaintext).run v).1.toOption.bind
        Envelope.inText? =
      cipher.nextEnvelope secret context v (Bytes.ofText plaintext) := by
  rw [tryEncryptText_run, nextEnvelope]
  cases hsealed : cipher.sealed (v.text secret) context (v.nonces v.drawn)
      (Bytes.ofText plaintext) with
  | error fault => rfl
  | ok e => exact Envelope.inText?_toBase64 (tagBytes_le_of_sealed hsealed)

/-- The plain form of encryption gives what the strict form gives, or nothing with a report. -/
theorem encrypt_run (plaintext : Bytes) :
    (cipher.encrypt scope secret context plaintext).run v =
      match (cipher.tryEncrypt scope secret context plaintext).run v with
      | (.ok envelope, after) => (envelope, after)
      | (.error fault, after) =>
        ([], after.addEvent (.encryptionFailed context plaintext.length fault)) := by
  simp only [encrypt, run_bind]
  rcases (cipher.tryEncrypt scope secret context plaintext).run v with ⟨fault | envelope, after⟩
  · rfl
  · rfl

theorem encryptText_run (plaintext : String) :
    (cipher.encryptText scope secret context plaintext).run v =
      match (cipher.tryEncryptText scope secret context plaintext).run v with
      | (.ok envelope, after) => (envelope, after)
      | (.error fault, after) =>
        ("", after.addEvent
          (.encryptionFailed context (Bytes.ofText plaintext).length fault)) := by
  simp only [encryptText, run_bind]
  rcases (cipher.tryEncryptText scope secret context plaintext).run v with
    ⟨fault | envelope, after⟩
  · rfl
  · rfl

/-- What the plain form of encryption gives is no envelope if the strict form fails. -/
theorem encrypt_result (plaintext : Bytes) :
    Envelope.inBytes? ((cipher.encrypt scope secret context plaintext).run v).1 =
      cipher.nextEnvelope secret context v plaintext := by
  rw [← cipher.tryEncrypt_result scope secret context v, encrypt_run]
  rcases (cipher.tryEncrypt scope secret context plaintext).run v with ⟨fault | envelope, after⟩
  · rfl
  · rfl

theorem encryptText_result (plaintext : String) :
    Envelope.inText? ((cipher.encryptText scope secret context plaintext).run v).1 =
      cipher.nextEnvelope secret context v (Bytes.ofText plaintext) := by
  rw [← cipher.tryEncryptText_result scope secret context v, encryptText_run]
  rcases (cipher.tryEncryptText scope secret context plaintext).run v with
    ⟨fault | envelope, after⟩
  · rfl
  · rfl

/-- Encryption fails just on plaintexts that are too long. -/
theorem tryEncrypt_fails_iff {plaintext : Bytes} :
    (∃ fault, ((cipher.tryEncrypt scope secret context plaintext).run v).1 = .error fault) ↔
      Gcm.plaintextLimit < plaintext.length := by
  constructor
  · rintro ⟨fault, h⟩
    rw [← cipher.nextEnvelope_eq_none_iff secret context v,
      ← cipher.tryEncrypt_result scope secret context v, h]
    rfl
  · intro h
    rw [tryEncrypt_run, cipher.sealed_of_lt _ _ _ h]
    exact ⟨.aeadFailure, rfl⟩

theorem tryEncryptText_fails_iff {plaintext : String} :
    (∃ fault, ((cipher.tryEncryptText scope secret context plaintext).run v).1 = .error fault) ↔
      Gcm.plaintextLimit < (Bytes.ofText plaintext).length := by
  constructor
  · rintro ⟨fault, h⟩
    rw [← cipher.nextEnvelope_eq_none_iff secret context v,
      ← cipher.tryEncryptText_result scope secret context v, h]
    rfl
  · intro h
    rw [tryEncryptText_run, cipher.sealed_of_lt _ _ _ h]
    exact ⟨.aeadFailure, rfl⟩

theorem encrypt_fails_iff {plaintext : Bytes} :
    ((cipher.encrypt scope secret context plaintext).run v).1 = [] ↔
      Gcm.plaintextLimit < plaintext.length := by
  constructor
  · intro h
    rw [← cipher.nextEnvelope_eq_none_iff secret context v,
      ← cipher.encrypt_result scope secret context v, h]
    rfl
  · intro h
    rw [encrypt_run, tryEncrypt_run, cipher.sealed_of_lt _ _ _ h]
    rfl

theorem encryptText_fails_iff {plaintext : String} :
    ((cipher.encryptText scope secret context plaintext).run v).1 = "" ↔
      Gcm.plaintextLimit < (Bytes.ofText plaintext).length := by
  constructor
  · intro h
    rw [← cipher.nextEnvelope_eq_none_iff secret context v,
      ← cipher.encryptText_result scope secret context v, h]
    rfl
  · intro h
    rw [encryptText_run, tryEncryptText_run, cipher.sealed_of_lt _ _ _ h]
    rfl

/-- Encryption draws the nonce of its envelope. -/
theorem draws_tryEncrypt (plaintext : Bytes) :
    Draws [cipher.nextEnvelope secret context v plaintext] v
      ((cipher.tryEncrypt scope secret context plaintext).run v).2 := by
  rw [tryEncrypt_run]
  exact cipher.draws_nextEnvelope scope secret context v plaintext

theorem draws_tryEncryptText (plaintext : String) :
    Draws [cipher.nextEnvelope secret context v (Bytes.ofText plaintext)] v
      ((cipher.tryEncryptText scope secret context plaintext).run v).2 := by
  rw [tryEncryptText_run]
  exact cipher.draws_nextEnvelope scope secret context v _

theorem draws_encrypt (plaintext : Bytes) :
    Draws [cipher.nextEnvelope secret context v plaintext] v
      ((cipher.encrypt scope secret context plaintext).run v).2 := by
  have hstrict := cipher.draws_tryEncrypt scope secret context v plaintext
  rw [encrypt_run]
  generalize (cipher.tryEncrypt scope secret context plaintext).run v = result at hstrict ⊢
  obtain ⟨fault | envelope, after⟩ := result
  · exact hstrict.then_none (.none_of_eq rfl rfl)
  · exact hstrict

theorem draws_encryptText (plaintext : String) :
    Draws [cipher.nextEnvelope secret context v (Bytes.ofText plaintext)] v
      ((cipher.encryptText scope secret context plaintext).run v).2 := by
  have hstrict := cipher.draws_tryEncryptText scope secret context v plaintext
  rw [encryptText_run]
  generalize (cipher.tryEncryptText scope secret context plaintext).run v = result at hstrict ⊢
  obtain ⟨fault | envelope, after⟩ := result
  · exact hstrict.then_none (.none_of_eq rfl rfl)
  · exact hstrict

/-! ### Decryption -/

theorem draws_afterOpen (result : Except Cipher.Fault Bytes) :
    Draws [] v (v.afterOpen scope secret result) := by
  cases result <;> exact .none_of_eq rfl rfl

theorem draws_afterRead (bytes : ValueId) (result : Except Cipher.Fault String) :
    Draws [] v (v.afterRead scope bytes result) := by
  cases result <;> exact .none_of_eq rfl rfl

/-- Decryption draws no nonce. -/
theorem draws_tryDecrypt (envelope : Bytes) :
    Draws [] v ((cipher.tryDecrypt scope secret context envelope).run v).2 := by
  rw [tryDecrypt_run]
  cases Envelope.ofBytes envelope with
  | error fault => exact .refl v
  | ok parsed => exact draws_afterOpen scope secret v _

theorem draws_tryDecryptText (envelope : String) :
    Draws [] v ((cipher.tryDecryptText scope secret context envelope).run v).2 := by
  rw [tryDecryptText_run]
  cases Envelope.ofBase64 envelope with
  | error fault => exact .refl v
  | ok parsed =>
    dsimp only
    cases cipher.opened (v.text secret) context parsed with
    | error fault => exact .none_of_eq rfl rfl
    | ok plaintext =>
      exact (draws_afterOpen scope secret v _).trans (draws_afterRead scope _ _ _)

theorem draws_decrypt (envelope : Bytes) :
    Draws [] v ((cipher.decrypt scope secret context envelope).run v).2 := by
  have hstrict := cipher.draws_tryDecrypt scope secret context v envelope
  rw [decrypt_run]
  generalize (cipher.tryDecrypt scope secret context envelope).run v = result at hstrict ⊢
  obtain ⟨fault | plaintext, after⟩ := result
  · exact hstrict.then_none (.none_of_eq rfl rfl)
  · exact hstrict

theorem draws_decryptText (envelope : String) :
    Draws [] v ((cipher.decryptText scope secret context envelope).run v).2 := by
  have hstrict := cipher.draws_tryDecryptText scope secret context v envelope
  rw [decryptText_run]
  generalize (cipher.tryDecryptText scope secret context envelope).run v = result at hstrict ⊢
  obtain ⟨fault | plaintext, after⟩ := result
  · exact hstrict.then_none (.none_of_eq rfl rfl)
  · exact hstrict

end FieldCipher

end FieldVault
