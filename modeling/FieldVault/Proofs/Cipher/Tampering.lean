import FieldVault.Proofs.Cipher.RoundTrip
import FieldVault.Proofs.Gcm.Tampering

/-!
# Altered envelopes do not open

An envelope whose tag is not the tag of its ciphertext under its nonce is rejected in the strict
form, and in the plain form it is given back with a single report (`rejects_of_tag_ne`). Replacing
the nonce or the tag of an envelope always has this effect (`altered_nonce_or_tag_rejected`), and so
has any change within one block of its ciphertext, unless the key encrypts the block of zeros to
itself (`altered_block_rejected`).
-/

set_option autoImplicit false

namespace FieldVault.FieldCipher

open Cipher Vault
open Wipe (ValueId)

variable {cipher : FieldCipher} {context : String}

/-- The strict form of decryption fails to authenticate an envelope, and the plain form gives the
envelope itself and makes one report of it. -/
def Rejects (cipher : FieldCipher) (scope : ScopeId) (secret : ValueId) (context : String)
    (envelope : Bytes) (v : Vault) : Prop :=
  (∃ after, (cipher.tryDecrypt scope secret context envelope).run v =
    (.error .aeadFailure, after)) ∧
  ∃ id after, (cipher.decrypt scope secret context envelope).run v = (id, after) ∧
    after.contents? id = some (.bytes envelope) ∧
    after.events = v.events ++ [.decryptionFailed context envelope.length .aeadFailure]

/-- A ciphertext with a tag that is not its own does not open. -/
theorem opened_of_tag_ne {secret : String} {nonce : Gcm.Nonce} {ciphertext tag : Bytes}
    (htag : tag.length = Gcm.tagBytes) (hlimit : ciphertext.length ≤ Gcm.ciphertextLimit)
    (hne : Gcm.tag (cipher.fieldKey secret context).roundKeys nonce ciphertext ≠ tag) :
    cipher.opened secret context ⟨nonce, ciphertext ++ tag⟩ = .error .aeadFailure := by
  rw [opened, openedUnder, Gcm.decrypt?_append htag hlimit, if_neg hne]

/-- An envelope with a tag that is not that of its ciphertext is rejected. -/
theorem rejects_of_tag_ne {w : Vault} {opener : ValueId} (other : ScopeId) {nonce : Gcm.Nonce}
    {ciphertext tag : Bytes} (htag : tag.length = Gcm.tagBytes)
    (hlimit : ciphertext.length ≤ Gcm.ciphertextLimit)
    (hne : Gcm.tag (cipher.fieldKey (w.text opener) context).roundKeys nonce ciphertext ≠ tag) :
    Rejects cipher other opener context (nonce.bytes ++ (ciphertext ++ tag)) w := by
  have hread : Envelope.ofBytes (nonce.bytes ++ (ciphertext ++ tag)) =
      .ok ⟨nonce, ciphertext ++ tag⟩ := by
    apply Envelope.ofBytes_toBytes (e := ⟨nonce, ciphertext ++ tag⟩)
    rw [List.length_append, htag]
    exact Nat.le_add_left _ _
  have hstrict : (cipher.tryDecrypt other opener context (nonce.bytes ++ (ciphertext ++ tag))).run
      w = (.error .aeadFailure, w.spendKey other opener) := by
    rw [tryDecrypt_run, hread]
    simp only [opened_of_tag_ne htag hlimit hne]
    rfl
  let after := w.spendKey other opener
  let report := Event.decryptionFailed context (nonce.bytes ++ (ciphertext ++ tag)).length
    .aeadFailure
  refine ⟨⟨after, hstrict⟩, after.cells.size,
    after.afterEcho other report (.bytes (nonce.bytes ++ (ciphertext ++ tag))), ?_, ?_, rfl⟩
  · rw [decrypt_run, hstrict]
  · exact contents?_addTracked_size (after.addEvent report) other _

/-- What an envelope consists of: the nonce that was drawn, the ciphertext and its tag. -/
theorem exists_parts_of_tryEncrypt {v : Vault} {scope : ScopeId} {secret : ValueId}
    {plaintext envelope : Bytes}
    (h : ((cipher.tryEncrypt scope secret context plaintext).run v).1 = .ok envelope) :
    let keys := (cipher.fieldKey (v.text secret) context).roundKeys
    ∃ ciphertext : Bytes, ciphertext.length ≤ Gcm.ciphertextLimit ∧
      envelope = (v.nonces v.drawn).bytes ++
        (ciphertext ++ Gcm.tag keys (v.nonces v.drawn) ciphertext) := by
  intro keys
  rw [tryEncrypt_run, sealed, sealedUnder] at h
  unfold Gcm.encrypt? at h
  split at h
  · cases h
  · rename_i sealed hsome
    split at hsome
    · rename_i hlimit
      refine ⟨Gcm.applyKeystream keys (v.nonces v.drawn) plaintext, ?_, ?_⟩
      · rw [Gcm.length_applyKeystream]
        exact Nat.le_trans hlimit (Nat.le_add_right _ _)
      · cases hsome
        cases h
        rfl
    · cases hsome

/-- The envelope of one byte. -/
theorem exists_envelope_of_byte (context : String) :
    ∃ envelope, ((standard.tryEncrypt 0 0 context [0x61]).run (Vault.ofTexts ["k"])).1 =
        .ok envelope ∧
      envelope.take 12 = Bytes.zeros 12 ∧ envelope.length = 29 := by
  have hlimit : [(0x61 : UInt8)].length ≤ Gcm.plaintextLimit := by decide
  obtain ⟨e, hsealed, hnonce, hlength⟩ :=
    exists_sealed standard "k" context ⟨Bytes.zeros 12, rfl⟩ hlimit
  refine ⟨e.toBytes, ?_, ?_, ?_⟩
  · rw [tryEncrypt_run]
    exact congrArg (Except.map Envelope.toBytes) hsealed
  · exact e.take_toBytes.trans (congrArg Gcm.Nonce.bytes hnonce)
  · rw [Envelope.length_toBytes, hlength]
    rfl

/-- An envelope with another nonce or another tag in place of its own is rejected, by a secret with
the same text, from any vault and into any scope. -/
theorem altered_nonce_or_tag_rejected (cipher : FieldCipher) (context : String) (v w : Vault)
    (scope other : ScopeId) {secret opener : ValueId} (hsecret : w.text opener = v.text secret)
    {plaintext envelope tampered : Bytes}
    (hsealed : ((cipher.tryEncrypt scope secret context plaintext).run v).1 = .ok envelope)
    (htampered :
      (∃ nonce : Bytes, nonce.length = 12 ∧ nonce ≠ envelope.take 12 ∧
        tampered = nonce ++ envelope.drop 12) ∨
      ∃ tag : Bytes, tag.length = 16 ∧ tag ≠ envelope.drop (envelope.length - 16) ∧
        tampered = envelope.take (envelope.length - 16) ++ tag) :
    Rejects cipher other opener context tampered w := by
  obtain ⟨ciphertext, hlimit, rfl⟩ := exists_parts_of_tryEncrypt hsealed
  have hnonce : (v.nonces v.drawn).bytes.length = 12 := (v.nonces v.drawn).length_bytes
  rcases htampered with ⟨nonce, hlength, hne, rfl⟩ | ⟨tag, hlength, hne, rfl⟩
  · -- the tag is that of the ciphertext under another nonce
    rw [List.take_left' hnonce] at hne
    rw [List.drop_left' hnonce]
    change Rejects cipher other opener context ((⟨nonce, hlength⟩ : Gcm.Nonce).bytes ++ _) w
    refine rejects_of_tag_ne other (Gcm.length_tag _ _ _) hlimit ?_
    rw [hsecret]
    intro htag
    exact hne (congrArg Gcm.Nonce.bytes (Gcm.nonce_eq_of_tag_eq htag))
  · -- the tag is not the one that encryption computed
    rw [← List.append_assoc] at hne ⊢
    have hcut : ((v.nonces v.drawn).bytes ++ ciphertext ++ Gcm.tag
        (cipher.fieldKey (v.text secret) context).roundKeys (v.nonces v.drawn) ciphertext).length -
        16 = ((v.nonces v.drawn).bytes ++ ciphertext).length := by
      rw [List.length_append, Gcm.length_tag]
      exact Nat.add_sub_cancel _ _
    rw [List.drop_left' hcut.symm] at hne
    rw [List.take_left' hcut.symm, List.append_assoc]
    refine rejects_of_tag_ne other hlength hlimit ?_
    rw [hsecret]
    exact hne.symm

/-- The envelope of one byte is rejected with another nonce. -/
theorem single_byte_rejected_under_other_nonce :
    ∃ envelope, ((standard.tryEncrypt 0 0 "Customer.ssn" [0x61]).run (Vault.ofTexts ["k"])).1 =
        .ok envelope ∧
      List.replicate 12 1 ≠ envelope.take 12 ∧
      Rejects standard 0 1 "Customer.ssn" (List.replicate 12 1 ++ envelope.drop 12)
        (Vault.ofTexts ["", "k"]) := by
  obtain ⟨envelope, hsealed, hnonce, -⟩ := exists_envelope_of_byte "Customer.ssn"
  have hne : List.replicate 12 (1 : UInt8) ≠ envelope.take 12 := by
    rw [hnonce]
    decide
  exact ⟨envelope, hsealed, hne,
    altered_nonce_or_tag_rejected standard "Customer.ssn" (Vault.ofTexts ["k"])
      (Vault.ofTexts ["", "k"]) 0 0 rfl hsealed (.inl ⟨List.replicate 12 1, rfl, hne, rfl⟩)⟩

/-- An envelope with one block of its ciphertext changed, in whatever way, is rejected, by a secret
with the same text, from any vault and into any scope, unless the key of the field encrypts the
block of zeros to itself. -/
theorem altered_block_rejected (cipher : FieldCipher) (context : String) (v w : Vault)
    (scope other : ScopeId) {secret opener : ValueId} (hsecret : w.text opener = v.text secret)
    (hkey : (cipher.fieldKey (v.text secret) context).roundKeys.encrypt
      (.ofBytes (Bytes.zeros 16)) ≠ .ofBytes (Bytes.zeros 16))
    {plaintext envelope tampered : Bytes}
    (hsealed : ((cipher.tryEncrypt scope secret context plaintext).run v).1 = .ok envelope)
    (hlength : tampered.length = envelope.length) (hne : tampered ≠ envelope) {k : Nat}
    (hblock : ∀ i, tampered[i]? ≠ envelope[i]? →
      12 + 16 * k ≤ i ∧ i < 12 + 16 * (k + 1) ∧ i < envelope.length - 16) :
    Rejects cipher other opener context tampered w := by
  obtain ⟨ciphertext, hlimit, rfl⟩ := exists_parts_of_tryEncrypt hsealed
  have hnonce : (v.nonces v.drawn).bytes.length = 12 := (v.nonces v.drawn).length_bytes
  obtain ⟨changed, hchanged, rfl⟩ := Bytes.exists_middle hlength fun i hi => by
    have hrange := hblock i hi
    have htag : Gcm.tagBytes = 16 := rfl
    rw [List.length_append, List.length_append, Gcm.length_tag] at hrange
    omega
  refine rejects_of_tag_ne other (Gcm.length_tag _ _ _) (hchanged ▸ hlimit) ?_
  rw [hsecret]
  have hne' : changed ≠ ciphertext := fun h => hne (by rw [h])
  refine Gcm.tag_ne_of_differ (k := k) (Gcm.hashKeyOf_ne_zero hkey) hchanged hne' ?_
  intro i hi
  have hinside : i < changed.length := by
    by_contra hout
    rw [List.getElem?_eq_none (by omega), List.getElem?_eq_none (by omega)] at hi
    exact hi rfl
  -- a place in the ciphertext is twelve places further in the envelope
  have hrange := hblock ((v.nonces v.drawn).bytes.length + i)
  rw [Bytes.getElem?_middle _ _ hinside, Bytes.getElem?_middle _ _ (hchanged ▸ hinside)] at hrange
  obtain ⟨hfrom, hto, -⟩ := hrange hi
  have hsize : Gcm.blockBytes = 16 := rfl
  rw [hsize]
  omega

/-- The envelope of one byte is rejected with a bit of its ciphertext flipped. -/
theorem single_byte_rejected_after_bit_flip :
    (standard.fieldKey ((Vault.ofTexts ["k"]).text 0) "c").roundKeys.encrypt
        (.ofBytes (Bytes.zeros 16)) ≠ .ofBytes (Bytes.zeros 16) ∧
      ∃ envelope, ((standard.tryEncrypt 0 0 "c" [0x61]).run (Vault.ofTexts ["k"])).1 =
          .ok envelope ∧
        Rejects standard 0 1 "c" (envelope.modify 12 (· ^^^ 1)) (Vault.ofTexts ["", "k"]) := by
  have hkey : (standard.fieldKey ((Vault.ofTexts ["k"]).text 0) "c").roundKeys.encrypt
      (.ofBytes (Bytes.zeros 16)) ≠ .ofBytes (Bytes.zeros 16) := by
    decide +kernel
  obtain ⟨envelope, hsealed, -, hlength⟩ := exists_envelope_of_byte "c"
  have hne : envelope.modify 12 (· ^^^ 1) ≠ envelope := by
    intro h
    have hinside : 12 < envelope.length := by omega
    obtain ⟨b, hb⟩ : ∃ b, envelope[12]? = some b := ⟨_, List.getElem?_eq_getElem hinside⟩
    have hflip : some (b ^^^ 1) = some (b ^^^ 0) := by
      rw [UInt8.xor_zero, ← hb, ← h, List.getElem?_modify_eq, hb]
      rfl
    exact absurd ((UInt8.xor_right_inj _).1 (Option.some.inj hflip)) (by decide)
  refine ⟨hkey, envelope, hsealed, ?_⟩
  refine altered_block_rejected standard "c" (Vault.ofTexts ["k"]) (Vault.ofTexts ["", "k"]) 0 0 rfl
    hkey hsealed (List.length_modify _ _ _) hne (k := 0) fun i hi => ?_
  by_cases h : 12 = i
  · omega
  · rw [List.getElem?_modify_ne _ _ h] at hi
    exact absurd rfl hi

end FieldVault.FieldCipher
