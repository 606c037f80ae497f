import FieldVault.Proofs.Bytes
import FieldVault.Proofs.Cipher.Draws
import FieldVault.Proofs.Cipher.Frame
import FieldVault.Proofs.Envelope.Forms

/-!
# How decryption ends

The strict decryption of a text goes through five stages, each with a fault of its own: the text is
the base64 form of some bytes, these are enough for an envelope, its tag is verified under the key
of the field, and the decrypted bytes are a text. `Ends` says for each stage when it is the last
one. A call ends in exactly this way, whatever the scope and the vault, and a text that is the form
of some bytes is decrypted as these bytes are, with the result read as UTF-8 behind that. No call
fails for its key, and encryption within the length limit never gives the empty result that stands
for a failure (`calls_end_by_stage`).
-/

set_option autoImplicit false

namespace FieldVault

open Wipe (ValueId)

/-! ### The parts of an envelope -/

namespace Envelope

variable {e : Envelope} {key : Aes.Key}

/-- The ciphertext of an envelope without its tag. -/
def body (e : Envelope) : Bytes := e.ciphertext.take (e.ciphertext.length - Gcm.tagBytes)

/-- The tag that an envelope carries. -/
def givenTag (e : Envelope) : Bytes := e.ciphertext.drop (e.ciphertext.length - Gcm.tagBytes)

/-- The tag of an envelope is verified under a key: there is no more to authenticate than the limit
allows, and the tag that the envelope carries is the one of its body. -/
def Verified (e : Envelope) (key : Aes.Key) : Prop :=
  e.body.length ≤ Gcm.ciphertextLimit ∧ Gcm.tag key.roundKeys e.nonce e.body = e.givenTag

/-- The bytes that the body of an envelope is decrypted to. -/
def plaintext (e : Envelope) (key : Aes.Key) : Bytes :=
  Gcm.applyKeystream key.roundKeys e.nonce e.body

theorem body_append_givenTag (e : Envelope) : e.body ++ e.givenTag = e.ciphertext :=
  List.take_append_drop _ _

theorem length_givenTag (hroom : Gcm.tagBytes ≤ e.ciphertext.length) :
    e.givenTag.length = Gcm.tagBytes := by
  rw [givenTag, List.length_drop]
  omega

end Envelope

namespace FieldCipher

open Cipher Vault

/-! ### The stages -/

/-- How the strict decryption of a text under a key ends, with the fault of the stage that stops it
or with a text. -/
inductive Ends (key : Aes.Key) (text : String) : Except Fault String → Prop where
  | encoding (hform : ∀ bytes, text ≠ Base64.standard bytes) : Ends key text (.error .encoding)
  | invalidEnvelope {bytes : Bytes} (hform : text = Base64.standard bytes)
    (hshort : bytes.length < 28) : Ends key text (.error (.invalidEnvelope bytes.length))
  | aeadFailure {e : Envelope} (hform : text = Base64.standard e.toBytes)
    (hroom : 16 ≤ e.ciphertext.length) (htag : ¬ e.Verified key) :
    Ends key text (.error .aeadFailure)
  | invalidUtf8 {e : Envelope} (hform : text = Base64.standard e.toBytes)
    (hroom : 16 ≤ e.ciphertext.length) (htag : e.Verified key)
    (hbytes : ∀ plaintext, Bytes.ofText plaintext ≠ e.plaintext key) :
    Ends key text (.error .invalidUtf8)
  | ok {e : Envelope} (hform : text = Base64.standard e.toBytes)
    (hroom : 16 ≤ e.ciphertext.length) (htag : e.Verified key) {plaintext : String}
    (hbytes : Bytes.ofText plaintext = e.plaintext key) : Ends key text (.ok plaintext)

section

variable {key : Aes.Key} {e : Envelope}

/-- An envelope with a verified tag opens. -/
theorem openedUnder_of_verified (hroom : Gcm.tagBytes ≤ e.ciphertext.length)
    (h : e.Verified key) : openedUnder key e = .ok (e.plaintext key) := by
  have hopen : Gcm.decrypt? key e.nonce (e.body ++ e.givenTag) = _ :=
    Gcm.decrypt?_append (Envelope.length_givenTag hroom) h.1
  rw [e.body_append_givenTag, if_pos h.2] at hopen
  rw [openedUnder, hopen]
  rfl

/-- An envelope with a tag that is not verified does not open. -/
theorem openedUnder_of_not_verified (hroom : Gcm.tagBytes ≤ e.ciphertext.length)
    (h : ¬ e.Verified key) : openedUnder key e = .error .aeadFailure := by
  have hopen : Gcm.decrypt? key e.nonce e.ciphertext = none := by
    by_cases hlimit : e.body.length ≤ Gcm.ciphertextLimit
    · have htag : Gcm.tag key.roundKeys e.nonce e.body ≠ e.givenTag := fun htag =>
        h ⟨hlimit, htag⟩
      have hopen : Gcm.decrypt? key e.nonce (e.body ++ e.givenTag) = _ :=
        Gcm.decrypt?_append (Envelope.length_givenTag hroom) hlimit
      rwa [e.body_append_givenTag, if_neg htag] at hopen
    · -- what is too long is refused before its tag is looked at
      rw [Gcm.decrypt?, if_neg (Nat.not_lt_of_le hroom)]
      exact if_neg hlimit
  rw [openedUnder, hopen]

theorem readText_eq_ok_iff {bytes : Bytes} {text : String} :
    readText bytes = .ok text ↔ Bytes.ofText text = bytes := by
  rw [readText]
  constructor
  · intro h
    split at h
    · cases h
    · rename_i found hfound
      cases h
      exact Bytes.ofText_of_toText? hfound
  · rintro rfl
    rw [Bytes.toText_ofText]

/-- Bytes that are no text have a fault of their own. -/
theorem readText_eq_error_iff {bytes : Bytes} {fault : Fault} :
    readText bytes = .error fault ↔
      (∀ text, Bytes.ofText text ≠ bytes) ∧ fault = .invalidUtf8 := by
  constructor
  · intro h
    refine ⟨fun text htext => ?_, fault_of_readText h⟩
    cases h.symm.trans (readText_eq_ok_iff.2 htext)
  · rintro ⟨hnone, rfl⟩
    cases h : readText bytes with
    | error fault => rw [fault_of_readText h]
    | ok text => exact absurd (readText_eq_ok_iff.1 h) (hnone text)

end

variable {cipher : FieldCipher} {secret context text : String} {outcome : Except Fault String}

/-- The stages say how a text is opened. -/
theorem ends_openedText (cipher : FieldCipher) (secret context text : String) :
    Ends (cipher.fieldKey secret context) text (cipher.openedText secret context text) := by
  rw [openedText]
  cases hparsed : Envelope.ofBase64 text with
  | error fault =>
    rcases Envelope.ofBase64_eq_iff.1 hparsed with ⟨bytes, hform, hread⟩ | ⟨hform, hfault⟩
    · obtain ⟨hshort, rfl⟩ := Envelope.ofBytes_eq_error_iff.1 hread
      exact .invalidEnvelope hform hshort
    · cases hfault
      exact .encoding hform
  | ok e =>
    obtain ⟨hroom, hform⟩ := Envelope.ofBase64_eq_ok_iff.1 hparsed
    rw [Envelope.toBase64_eq_standard] at hform
    simp only [Except.bind, opened]
    by_cases htag : e.Verified (cipher.fieldKey secret context)
    · rw [openedUnder_of_verified hroom htag]
      dsimp only
      cases hread : readText (e.plaintext (cipher.fieldKey secret context)) with
      | error fault =>
        obtain ⟨hnone, rfl⟩ := readText_eq_error_iff.1 hread
        exact .invalidUtf8 hform hroom htag hnone
      | ok plaintext => exact .ok hform hroom htag (readText_eq_ok_iff.1 hread)
    · rw [openedUnder_of_not_verified hroom htag]
      exact .aeadFailure hform hroom htag

/-- A text that is the form of some bytes is opened as these are. -/
theorem openedText_standard (cipher : FieldCipher) (secret context : String) (bytes : Bytes) :
    cipher.openedText secret context (Base64.standard bytes) =
      ((Envelope.ofBytes bytes).bind (cipher.opened secret context)).bind readText := by
  have hread : Envelope.ofBase64 (Base64.standard bytes) = Envelope.ofBytes bytes :=
    Envelope.ofBase64_eq_iff.2 (.inl ⟨bytes, rfl, rfl⟩)
  rw [openedText, hread]
  cases Envelope.ofBytes bytes with
  | error fault => rfl
  | ok e => rfl

/-- The bytes of an envelope with room for a tag are opened under the key of the field. -/
theorem openedText_envelope {e : Envelope} (hform : text = Base64.standard e.toBytes)
    (hroom : Gcm.tagBytes ≤ e.ciphertext.length) :
    cipher.openedText secret context text =
      (openedUnder (cipher.fieldKey secret context) e).bind readText := by
  rw [hform, openedText_standard, Envelope.ofBytes_toBytes hroom]
  rfl

/-- There is one way in which the decryption of a text ends. -/
theorem ends_iff :
    Ends (cipher.fieldKey secret context) text outcome ↔
      cipher.openedText secret context text = outcome := by
  constructor
  · intro h
    cases h with
    | encoding hform =>
      have hparsed : Envelope.ofBase64 text = .error .encoding :=
        Envelope.ofBase64_eq_iff.2 (.inr ⟨hform, rfl⟩)
      rw [openedText, hparsed]
      rfl
    | invalidEnvelope hform hshort =>
      rw [hform, openedText_standard, Envelope.ofBytes_eq_error_iff.2 ⟨hshort, rfl⟩]
      rfl
    | aeadFailure hform hroom htag =>
      rw [openedText_envelope hform hroom, openedUnder_of_not_verified hroom htag]
      rfl
    | invalidUtf8 hform hroom htag hbytes =>
      rw [openedText_envelope hform hroom, openedUnder_of_verified hroom htag]
      exact readText_eq_error_iff.2 ⟨hbytes, rfl⟩
    | ok hform hroom htag hbytes =>
      rw [openedText_envelope hform hroom, openedUnder_of_verified hroom htag]
      exact readText_eq_ok_iff.2 hbytes
  · rintro rfl
    exact ends_openedText cipher secret context text

/-! ### The calls -/

/-- What a call comes to: a fault, or a value with some contents. -/
def EndsIn {α : Type} (contents : α → Contents) (result : Except Fault ValueId × Vault) :
    Except Fault α → Prop
  | .ok a => ∃ id, result.1 = .ok id ∧ result.2.contents? id = some (contents a)
  | .error fault => result.1 = .error fault

/-- A call comes to one thing only. -/
theorem EndsIn.unique {α : Type} {contents : α → Contents} {result : Except Fault ValueId × Vault}
    (hcontents : ∀ {a b : α}, contents a = contents b → a = b) {first second : Except Fault α}
    (hfirst : EndsIn contents result first) (hsecond : EndsIn contents result second) :
    first = second := by
  cases first with
  | error fault =>
    cases second with
    | error other => exact congrArg Except.error (Except.error.inj (hfirst.symm.trans hsecond))
    | ok b =>
      obtain ⟨id, hid, -⟩ := hsecond
      cases hfirst.symm.trans hid
  | ok a =>
    obtain ⟨id, hid, ha⟩ := hfirst
    cases second with
    | error other => cases hid.symm.trans hsecond
    | ok b =>
      obtain ⟨other, hother, hb⟩ := hsecond
      cases hid.symm.trans hother
      exact congrArg Except.ok (hcontents (Option.some.inj (ha.symm.trans hb)))

variable (cipher : FieldCipher) (scope : ScopeId) (secret : ValueId) (context : String) (v : Vault)

/-- Decryption of a text comes to what the text is opened to. -/
theorem endsIn_tryDecryptText (text : String) :
    EndsIn .text ((cipher.tryDecryptText scope secret context text).run v)
      (cipher.openedText (v.text secret) context text) := by
  cases h : cipher.openedText (v.text secret) context text with
  | ok plaintext =>
    obtain ⟨after, hrun, hcontents, -⟩ := tryDecryptText_of_ok scope h
    rw [hrun]
    exact ⟨_, rfl, hcontents⟩
  | error fault =>
    obtain ⟨after, hrun, -⟩ := tryDecryptText_of_error scope h
    rw [hrun]
    rfl

/-- Decryption of bytes comes to what the envelope that they are is opened to. -/
theorem endsIn_tryDecrypt (bytes : Bytes) :
    EndsIn .bytes ((cipher.tryDecrypt scope secret context bytes).run v)
      ((Envelope.ofBytes bytes).bind (cipher.opened (v.text secret) context)) := by
  rw [tryDecrypt_run]
  cases Envelope.ofBytes bytes with
  | error fault => rfl
  | ok e =>
    simp only [Except.bind]
    cases cipher.opened (v.text secret) context e with
    | error fault => rfl
    | ok plaintext =>
      have hcontents := contents?_addTracked_size (v.spendKey scope secret) scope (.bytes plaintext)
      rw [size_cells_spendKey] at hcontents
      exact ⟨v.cells.size + 1, rfl, hcontents⟩

/-! ### Faults that do not arise -/

/-- The faults of a key: it cannot be derived, is gone already, or has the wrong length. -/
def keyFaults : List Fault := [.keyDerivation, .keyDestroyed, .invalidKeyLength]

variable {fault : Fault}

theorem eq_error_of_map {α β : Type} {f : α → β} {result : Except Fault α}
    (h : result.map f = .error fault) : result = .error fault := by
  cases result with
  | error stopped =>
    cases h
    rfl
  | ok a => cases h

theorem notMem_keyFaults_of_sealed {secret : String} {nonce : Gcm.Nonce} {plaintext : Bytes}
    (h : cipher.sealed secret context nonce plaintext = .error fault) : fault ∉ keyFaults := by
  rw [fault_of_sealed h]
  decide

theorem notMem_keyFaults_of_openedText {secret : String}
    (h : cipher.openedText secret context text = .error fault) : fault ∉ keyFaults := by
  cases ends_iff.2 h <;> simp [keyFaults]

theorem notMem_keyFaults_of_opened {secret : String} {bytes : Bytes}
    (h : (Envelope.ofBytes bytes).bind (cipher.opened secret context) = .error fault) :
    fault ∉ keyFaults := by
  have htext : cipher.openedText secret context (Base64.standard bytes) = .error fault := by
    rw [openedText_standard, h]
    rfl
  exact cipher.notMem_keyFaults_of_openedText context htext

/-- The empty byte string that stands for a failure is no envelope. -/
theorem encrypt_ne_nil {plaintext : Bytes} (h : plaintext.length ≤ Gcm.plaintextLimit) :
    ((cipher.encrypt scope secret context plaintext).run v).1 ≠ [] := fun hnil =>
  Nat.not_lt_of_le h ((cipher.encrypt_fails_iff scope secret context v).1 hnil)

/-- The empty text that stands for a failure is no envelope. -/
theorem encryptText_ne_empty {text : String}
    (h : (Bytes.ofText text).length ≤ Gcm.plaintextLimit) :
    ((cipher.encryptText scope secret context text).run v).1 ≠ "" := fun hempty =>
  Nat.not_lt_of_le h ((cipher.encryptText_fails_iff scope secret context v).1 hempty)

/-- No strict call fails for its key. -/
theorem notMem_keyFaults_of_tryEncrypt {plaintext : Bytes}
    (h : ((cipher.tryEncrypt scope secret context plaintext).run v).1 = .error fault) :
    fault ∉ keyFaults := by
  rw [tryEncrypt_run] at h
  exact cipher.notMem_keyFaults_of_sealed context (eq_error_of_map h)

theorem notMem_keyFaults_of_tryEncryptText
    (h : ((cipher.tryEncryptText scope secret context text).run v).1 = .error fault) :
    fault ∉ keyFaults := by
  rw [tryEncryptText_run] at h
  exact cipher.notMem_keyFaults_of_sealed context (eq_error_of_map h)

theorem notMem_keyFaults_of_tryDecrypt {bytes : Bytes}
    (h : ((cipher.tryDecrypt scope secret context bytes).run v).1 = .error fault) :
    fault ∉ keyFaults :=
  cipher.notMem_keyFaults_of_opened context
    ((endsIn_tryDecrypt cipher scope secret context v bytes).unique Contents.bytes.inj h)

theorem notMem_keyFaults_of_tryDecryptText
    (h : ((cipher.tryDecryptText scope secret context text).run v).1 = .error fault) :
    fault ∉ keyFaults :=
  cipher.notMem_keyFaults_of_openedText context
    ((endsIn_tryDecryptText cipher scope secret context v text).unique Contents.text.inj h)

/-- Decryption of a text ends as the stages say: the text is not the base64 form of any bytes, or
the bytes are too few, or the tag of the envelope is not verified under the key of the field, or the
decrypted bytes are no text, or else the result is this text; there is always one way, and only one.
It ends as the decryption of the bytes does, with the result read as UTF-8. None of the calls has a
fault of its key, and within the length limit encryption does not give the empty result. -/
theorem calls_end_by_stage (cipher : FieldCipher) (scope : ScopeId) (secret : ValueId)
    (context : String) (v : Vault) :
    let key := cipher.fieldKey (v.text secret) context
    deriveKey? (Bytes.ofText (v.text secret)) context cipher.label = some key.bytes ∧
    (∀ text, (∃! outcome, Ends key text outcome) ∧
      ∀ outcome, EndsIn .text ((cipher.tryDecryptText scope secret context text).run v) outcome ↔
        Ends key text outcome) ∧
    (∀ bytes, ∃ outcome,
      EndsIn .bytes ((cipher.tryDecrypt scope secret context bytes).run v) outcome ∧
      EndsIn .text ((cipher.tryDecryptText scope secret context (Base64.standard bytes)).run v)
        (outcome.bind readText)) ∧
    (∀ fault ∈ keyFaults,
      (∀ plaintext, ((cipher.tryEncrypt scope secret context plaintext).run v).1 ≠ .error fault) ∧
      (∀ text, ((cipher.tryEncryptText scope secret context text).run v).1 ≠ .error fault) ∧
      (∀ bytes, ((cipher.tryDecrypt scope secret context bytes).run v).1 ≠ .error fault) ∧
      ∀ text, ((cipher.tryDecryptText scope secret context text).run v).1 ≠ .error fault) ∧
    (∀ plaintext : Bytes, plaintext.length ≤ Gcm.plaintextLimit →
      ((cipher.encrypt scope secret context plaintext).run v).1 ≠ []) ∧
    (∀ text, (Bytes.ofText text).length ≤ Gcm.plaintextLimit →
      ((cipher.encryptText scope secret context text).run v).1 ≠ "") := by
  intro key
  refine ⟨deriveKey?_eq_fieldKey cipher _ context, fun text => ⟨?_, fun outcome => ?_⟩,
    fun bytes => ?_, fun fault hfault => ?_, fun plaintext => encrypt_ne_nil cipher scope _ _ v,
    fun text => encryptText_ne_empty cipher scope _ _ v⟩
  · refine ⟨_, ends_openedText cipher _ context text, fun outcome hends => ?_⟩
    exact (ends_iff.1 hends).symm
  · have hcall := endsIn_tryDecryptText cipher scope secret context v text
    rw [ends_iff]
    constructor
    · exact fun hends => hcall.unique Contents.text.inj hends
    · rintro rfl
      exact hcall
  · refine ⟨_, endsIn_tryDecrypt cipher scope secret context v bytes, ?_⟩
    rw [← openedText_standard]
    exact endsIn_tryDecryptText cipher scope secret context v _
  · exact ⟨fun _ h => notMem_keyFaults_of_tryEncrypt cipher scope secret context v h hfault,
      fun _ h => notMem_keyFaults_of_tryEncryptText cipher scope secret context v h hfault,
      fun _ h => notMem_keyFaults_of_tryDecrypt cipher scope secret context v h hfault,
      fun _ h => notMem_keyFaults_of_tryDecryptText cipher scope secret context v h hfault⟩

/-- A byte that is no text on its own is encrypted, and its envelope fails at the last stage as a
text, while a text of four letters fails at the second one and a letter alone at the first. -/
theorem lone_byte_ends_as_invalidUtf8 :
    Fault.keyDestroyed ∈ keyFaults ∧ [(0xff : UInt8)].length ≤ Gcm.plaintextLimit ∧
    ∃ envelope : Bytes,
      ((standard.tryEncrypt 0 0 "Customer.ssn" [0xff]).run (Vault.ofTexts ["k"])).1 =
        .ok envelope ∧
      ((standard.tryDecryptText 0 0 "Customer.ssn" (Base64.standard envelope)).run
        (Vault.ofTexts ["k"])).1 = .error .invalidUtf8 ∧
      ((standard.tryDecryptText 0 0 "Customer.ssn" "AAAA").run (Vault.ofTexts ["k"])).1 =
        .error (.invalidEnvelope 3) ∧
      ((standard.tryDecryptText 0 0 "Customer.ssn" "A").run (Vault.ofTexts ["k"])).1 =
        .error .encoding ∧
      ((standard.tryDecryptText 0 0 "Customer.ssn" "AAAA").run (Vault.ofTexts ["k"])).1 ≠
        .error .keyDestroyed ∧
      ((standard.encrypt 0 0 "Customer.ssn" [0xff]).run (Vault.ofTexts ["k"])).1 ≠ [] := by
  have hlimit : [(0xff : UInt8)].length ≤ Gcm.plaintextLimit := by decide
  have hkey : Fault.keyDestroyed ∈ keyFaults := by decide
  obtain ⟨-, hends, hbytes, hkeys, hnil, -⟩ :=
    calls_end_by_stage standard 0 0 "Customer.ssn" (Vault.ofTexts ["k"])
  obtain ⟨e, hsealed, -, -⟩ :=
    exists_sealed standard "k" "Customer.ssn" ((Vault.ofTexts ["k"]).nonces 0) hlimit
  have hopened := opened_of_sealed hsealed
  refine ⟨hkey, hlimit, e.toBytes, ?_, ?_, ?_, ?_, (hkeys _ hkey).2.2.2 "AAAA", hnil _ hlimit⟩
  · rw [tryEncrypt_run]
    exact congrArg (Except.map Envelope.toBytes) hsealed
  · have hread : Envelope.ofBytes e.toBytes = .ok e :=
      Envelope.ofBytes_toBytes (tagBytes_le_of_sealed hsealed)
    have hcall := hends (Base64.standard e.toBytes)
    refine (hcall.2 (.error .invalidUtf8)).2 (ends_iff.2 ?_)
    rw [openedText_standard, hread]
    change (standard.opened "k" "Customer.ssn" e).bind readText = _
    rw [hopened]
    rfl
  · have hform : "AAAA" = Base64.standard [0, 0, 0] := Base64.decode?_eq_some_iff.1 rfl
    exact ((hends "AAAA").2 (.error (.invalidEnvelope 3))).2 (.invalidEnvelope hform (by decide))
  · refine ((hends "A").2 (.error .encoding)).2 (.encoding ?_)
    exact Base64.decode?_eq_none_iff.1 (by decide)

end FieldCipher

end FieldVault
