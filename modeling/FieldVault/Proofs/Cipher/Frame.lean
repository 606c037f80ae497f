import FieldVault.Proofs.Cipher.Growth

/-!
# Calls of a cipher touch nothing but their own values

A call of a cipher creates its keys and buffers behind the values that are there and tracks them,
with the secret, in the scope it is given; everything older stays as it was, because the call only
adds. The decrypting calls are summed up in these terms: which text they give
(`tryDecryptText_of_ok`, `decryptText_spec`), what they report, and that they are framed.
-/

set_option autoImplicit false

namespace FieldVault

open Wipe (ValueId)
open Vault (Frame)

namespace Vault

@[simp] theorem afterRead_events (v : Vault) (scope : ScopeId) (bytes : ValueId)
    (result : Except Cipher.Fault String) :
    (v.afterRead scope bytes result).events = v.events := by
  cases result <;> rfl

@[simp] theorem afterOpen_events (v : Vault) (scope : ScopeId) (secret : ValueId)
    (result : Except Cipher.Fault Bytes) :
    (v.afterOpen scope secret result).events = v.events := by
  cases result <;> rfl

end Vault

namespace FieldCipher

open Cipher Vault

variable (cipher : FieldCipher) (scope : ScopeId) (secret : ValueId) (context : String)

/-- Encryption of a text is framed and reports nothing. -/
theorem frame_tryEncryptText (plaintext : String) (v : Vault) :
    Frame v.cells.size scope [secret] v
      ((cipher.tryEncryptText scope secret context plaintext).run v).2 :=
  (cipher.grows_tryEncryptText scope context v (List.mem_singleton_self secret) _).frame

variable {cipher secret context}

/-- A text envelope that opens gives a new value with its text. -/
theorem tryDecryptText_of_ok {envelope text : String} {v : Vault}
    (h : cipher.openedText (v.text secret) context envelope = .ok text) :
    ∃ after, (cipher.tryDecryptText scope secret context envelope).run v =
        (.ok (v.cells.size + 2), after) ∧
      after.contents? (v.cells.size + 2) = some (.text text) ∧ after.events = v.events := by
  unfold openedText at h
  rw [tryDecryptText_run]
  cases hparsed : Envelope.ofBase64 envelope with
  | error fault =>
    rw [hparsed] at h
    cases h
  | ok parsed =>
    rw [hparsed, Except.bind] at h
    dsimp only
    cases hopened : cipher.opened (v.text secret) context parsed with
    | error fault =>
      rw [hopened] at h
      cases h
    | ok plaintext =>
      rw [hopened, Except.bind] at h
      simp only [h]
      have hsize : (v.afterOpen scope secret (.ok plaintext)).cells.size = v.cells.size + 2 := by
        rw [afterOpen, size_cells_addTracked, size_cells_spendKey]
      refine ⟨_, rfl, ?_, ?_⟩
      · -- the text is the last value, and another one is let go
        have hnew := contents?_addTracked_size (v.afterOpen scope secret (.ok plaintext)) scope
          (.text text)
        have hne : v.cells.size + 2 ≠ v.cells.size + 1 := by omega
        rw [hsize] at hnew
        rw [afterRead, contents?_letGo_of_ne hne, hnew]
      · rw [afterRead_events, afterOpen_events]

/-- A text that does not open gives the fault, and no report. -/
theorem tryDecryptText_of_error {envelope : String} {fault : Fault} {v : Vault}
    (h : cipher.openedText (v.text secret) context envelope = .error fault) :
    ∃ after, (cipher.tryDecryptText scope secret context envelope).run v = (.error fault, after) ∧
      after.events = v.events := by
  unfold openedText at h
  rw [tryDecryptText_run]
  cases hparsed : Envelope.ofBase64 envelope with
  | error fault =>
    rw [hparsed] at h
    cases h
    exact ⟨v, rfl, rfl⟩
  | ok parsed =>
    rw [hparsed, Except.bind] at h
    dsimp only
    cases hopened : cipher.opened (v.text secret) context parsed with
    | error fault =>
      rw [hopened] at h
      cases h
      exact ⟨v.spendKey scope secret, rfl, rfl⟩
    | ok plaintext =>
      rw [hopened, Except.bind] at h
      simp only [h]
      refine ⟨_, rfl, ?_⟩
      rw [afterRead_events, afterOpen_events]

/-- What the strict form of decryption comes to with a secret of a given text, whatever the vault
and the scope: a new value with a text, or a fault. -/
def DecryptsTo (cipher : FieldCipher) (key context envelope : String) :
    Except Fault String → Prop
  | .ok text => ∀ (scope : ScopeId) (secret : ValueId) (v : Vault), v.text secret = key →
    ∃ id after, (cipher.tryDecryptText scope secret context envelope).run v = (.ok id, after) ∧
      after.contents? id = some (.text text)
  | .error fault => ∀ (scope : ScopeId) (secret : ValueId) (v : Vault), v.text secret = key →
    ((cipher.tryDecryptText scope secret context envelope).run v).1 = .error fault

theorem decryptsTo_openedText (cipher : FieldCipher) (key context envelope : String) :
    cipher.DecryptsTo key context envelope (cipher.openedText key context envelope) := by
  cases h : cipher.openedText key context envelope with
  | ok text =>
    rintro scope secret v rfl
    obtain ⟨after, hrun, hcontents, -⟩ := tryDecryptText_of_ok scope h
    exact ⟨_, after, hrun, hcontents⟩
  | error fault =>
    rintro scope secret v rfl
    obtain ⟨after, hrun, -⟩ := tryDecryptText_of_error scope h
    rw [hrun]

/-- What is reported when a text is decrypted in the plain form. -/
def reportsOf (context envelope : String) : Except Fault String → List Event
  | .ok _ => []
  | .error fault => [.decryptionFailed context (Bytes.ofText envelope).length fault]

/-- The text that the plain form of decryption gives. -/
def textOrInput (envelope : String) : Except Fault String → String
  | .ok text => text
  | .error _ => envelope

variable (cipher secret context)

/-- The plain form gives a new value with the text of the envelope or the input itself, and reports
a failure once. -/
theorem decryptText_spec (envelope : String) (v : Vault) :
    let outcome := cipher.openedText (v.text secret) context envelope
    ∃ id after, (cipher.decryptText scope secret context envelope).run v = (id, after) ∧
      v.cells.size ≤ id ∧ after.contents? id = some (.text (textOrInput envelope outcome)) ∧
      after.events = v.events ++ reportsOf context envelope outcome ∧
      Frame v.cells.size scope [secret] v after := by
  intro outcome
  have hgrows := cipher.grows_decryptText scope context v (List.mem_singleton_self secret) envelope
  cases h : outcome with
  | ok text =>
    obtain ⟨after, hrun, hcontents, hevents⟩ := tryDecryptText_of_ok scope h
    have hplain : (cipher.decryptText scope secret context envelope).run v =
        (v.cells.size + 2, after) := by
      rw [decryptText_run, hrun]
    rw [hplain] at hgrows
    refine ⟨_, after, hplain, Nat.le_add_right _ _, hcontents, ?_, hgrows.frame⟩
    rw [hevents, reportsOf, List.append_nil]
  | error fault =>
    obtain ⟨after, hrun, hevents⟩ := tryDecryptText_of_error scope h
    let report := Event.decryptionFailed context (Bytes.ofText envelope).length fault
    have hplain : (cipher.decryptText scope secret context envelope).run v =
        (after.cells.size, after.afterEcho scope report (.text envelope)) := by
      rw [decryptText_run, hrun]
    rw [hplain] at hgrows
    refine ⟨_, _, hplain, hgrows.fresh _ (List.mem_singleton_self _), ?_, ?_, hgrows.frame⟩
    · exact contents?_addTracked_size (after.addEvent _) _ _
    · rw [afterEcho, addTracked_events, addEvent_events, hevents, reportsOf]

end FieldCipher

end FieldVault
