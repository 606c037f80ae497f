import FieldVault.Proofs.Cipher.Frame

/-!
# Decryption restores what was encrypted

Within the length limit encryption never fails. Its envelope starts with the nonce that was drawn
and is 28 bytes longer than the plaintext. Decryption with the same secret text, context and label
gives the plaintext back in either form, from any vault and into any scope, and reports nothing;
texts go the same way through the base64 form of their envelopes
(`decryption_restores_plaintext`).
-/

set_option autoImplicit false

namespace FieldVault.FieldCipher

open Cipher Vault
open Wipe (ValueId)

variable {cipher : FieldCipher} {context : String} {w : Vault} {opener : ValueId}

/-- The strict and the plain form give the plaintext of an envelope that opens, without a report. -/
theorem decrypt_of_opened {parsed : Envelope} {envelope plaintext : Bytes} (scope : ScopeId)
    (hparsed : Envelope.ofBytes envelope = .ok parsed)
    (hopened : cipher.opened (w.text opener) context parsed = .ok plaintext) :
    ∃ id after, (cipher.tryDecrypt scope opener context envelope).run w = (.ok id, after) ∧
      (cipher.decrypt scope opener context envelope).run w = (id, after) ∧
      after.contents? id = some (.bytes plaintext) ∧ after.events = w.events := by
  have hstrict : (cipher.tryDecrypt scope opener context envelope).run w =
      (.ok (w.cells.size + 1), w.afterOpen scope opener (.ok plaintext)) := by
    rw [tryDecrypt_run, hparsed]
    simp only [hopened]
    rfl
  refine ⟨w.cells.size + 1, w.afterOpen scope opener (.ok plaintext), hstrict, ?_, ?_, rfl⟩
  · rw [decrypt_run, hstrict]
  · have h := contents?_addTracked_size (w.spendKey scope opener) scope (.bytes plaintext)
    rwa [size_cells_spendKey] at h

/-- The strict and the plain form give the text of an envelope that opens, without a report. -/
theorem decryptText_of_openedText {envelope text : String} (scope : ScopeId)
    (hopened : cipher.openedText (w.text opener) context envelope = .ok text) :
    ∃ id after, (cipher.tryDecryptText scope opener context envelope).run w = (.ok id, after) ∧
      (cipher.decryptText scope opener context envelope).run w = (id, after) ∧
      after.contents? id = some (.text text) ∧ after.events = w.events := by
  obtain ⟨after, hstrict, hcontents, hevents⟩ := tryDecryptText_of_ok scope hopened
  refine ⟨_, after, hstrict, ?_, hcontents, hevents⟩
  rw [decryptText_run, hstrict]

/-- Encryption of a plaintext within the limit gives an envelope that starts with the next nonce and
is 28 bytes longer, and decryption with a secret of the same text, from any vault and into any
scope, gives a value with the plaintext, in the strict form and, without a report, in the plain
form. Encryption of a text gives the base64 text of the envelope of its UTF-8 bytes, and decryption
of that gives a value with the text. -/
theorem decryption_restores_plaintext (cipher : FieldCipher) (context : String) (v w : Vault)
    (scope other : ScopeId) {secret opener : ValueId} (hsecret : w.text opener = v.text secret) :
    (∀ plaintext : Bytes, plaintext.length ≤ Gcm.plaintextLimit →
      ∃ envelope, ((cipher.tryEncrypt scope secret context plaintext).run v).1 = .ok envelope ∧
        envelope.take 12 = (v.nonces v.drawn).bytes ∧
        envelope.length = plaintext.length + 28 ∧
        ∃ id after, (cipher.tryDecrypt other opener context envelope).run w = (.ok id, after) ∧
          (cipher.decrypt other opener context envelope).run w = (id, after) ∧
          after.contents? id = some (.bytes plaintext) ∧ after.events = w.events) ∧
    (∀ text : String, (Bytes.ofText text).length ≤ Gcm.plaintextLimit →
      ∃ envelope, ((cipher.tryEncrypt scope secret context (Bytes.ofText text)).run v).1 =
          .ok envelope ∧
        ((cipher.tryEncryptText scope secret context text).run v).1 =
          .ok (Base64.encode envelope) ∧
        ∃ id after, (cipher.tryDecryptText other opener context (Base64.encode envelope)).run w =
            (.ok id, after) ∧
          (cipher.decryptText other opener context (Base64.encode envelope)).run w = (id, after) ∧
          after.contents? id = some (.text text) ∧ after.events = w.events) := by
  constructor
  · intro plaintext hlimit
    obtain ⟨e, hsealed, hnonce, hlength⟩ :=
      exists_sealed cipher (v.text secret) context (v.nonces v.drawn) hlimit
    have hread := Envelope.ofBytes_toBytes (tagBytes_le_of_sealed hsealed)
    -- only the text of the secret matters, not the vault that holds it
    have hopened : cipher.opened (w.text opener) context e = .ok plaintext := by
      rw [hsecret]
      exact opened_of_sealed hsealed
    refine ⟨e.toBytes, ?_, ?_, ?_, decrypt_of_opened other hread hopened⟩
    · rw [tryEncrypt_run, hsealed]
      rfl
    · rw [← hnonce]
      exact e.take_toBytes
    · -- the nonce and the tag are what an envelope has besides the plaintext
      have htag : Gcm.nonceBytes + Gcm.tagBytes = 28 := rfl
      rw [Envelope.length_toBytes, hlength]
      omega
  · intro text hlimit
    obtain ⟨e, hsealed, -, -⟩ :=
      exists_sealed cipher (v.text secret) context (v.nonces v.drawn) hlimit
    have hopened : cipher.openedText (w.text opener) context (Base64.encode e.toBytes) =
        .ok text := by
      rw [hsecret]
      exact openedText_of_sealed hsealed
    refine ⟨e.toBytes, ?_, ?_, decryptText_of_openedText other hopened⟩
    · rw [tryEncrypt_run, hsealed]
      rfl
    · rw [tryEncryptText_run, hsealed]
      rfl

/-- A single byte is sealed in 29 bytes, and restored in another vault with another secret of the
same text. -/
theorem single_byte_restored :
    (Vault.ofTexts ["", "k"]).text 1 = (Vault.ofTexts ["k"]).text 0 ∧
      [(0x61 : UInt8)].length ≤ Gcm.plaintextLimit ∧
      ∃ envelope, ((standard.tryEncrypt 0 0 "Customer.ssn" [0x61]).run (Vault.ofTexts ["k"])).1 =
          .ok envelope ∧
        envelope.length = 29 ∧
        ∃ id after,
          (standard.tryDecrypt 0 1 "Customer.ssn" envelope).run (Vault.ofTexts ["", "k"]) =
            (.ok id, after) ∧ after.contents? id = some (.bytes [0x61]) := by
  have hsecret : (Vault.ofTexts ["", "k"]).text 1 = (Vault.ofTexts ["k"]).text 0 := rfl
  have hlimit : [(0x61 : UInt8)].length ≤ Gcm.plaintextLimit := by decide
  obtain ⟨envelope, hsealed, -, hlength, id, after, hopened, -, hcontents, -⟩ :=
    (decryption_restores_plaintext standard "Customer.ssn" (Vault.ofTexts ["k"])
      (Vault.ofTexts ["", "k"]) 0 0 hsecret).1 [0x61] hlimit
  exact ⟨hsecret, hlimit, envelope, hsealed, hlength, id, after, hopened, hcontents⟩

end FieldVault.FieldCipher
