import FieldVault.Proofs.Base64.Standard
import FieldVault.Proofs.Envelope

/-!
# Each envelope has one form

Byte strings of at least 28 bytes and envelopes with room for a tag are the same, and so are these
envelopes and the standard base64 texts of such byte strings. Every other byte string and every
other text is refused, each with its own fault (`forms_exact`).
-/

set_option autoImplicit false

namespace FieldVault.Envelope

open Cipher (Fault)

variable {bytes : Bytes} {text : String} {e : Envelope} {fault : Fault}

/-- A byte string is read as an envelope exactly if it is the bytes of that envelope. -/
theorem ofBytes_eq_ok_iff :
    ofBytes bytes = .ok e ↔ Gcm.tagBytes ≤ e.ciphertext.length ∧ bytes = e.toBytes := by
  constructor
  · intro h
    have hbytes := toBytes_of_ofBytes h
    refine ⟨?_, hbytes.symm⟩
    unfold ofBytes at h
    split at h
    · rename_i hlong
      rw [← hbytes, length_toBytes, minLength] at hlong
      exact Nat.le_of_add_le_add_left hlong
    · cases h
  · rintro ⟨hroom, rfl⟩
    exact ofBytes_toBytes hroom

/-- Only byte strings that are too short are refused, and the fault tells their length. -/
theorem ofBytes_eq_error_iff :
    ofBytes bytes = .error fault ↔
      bytes.length < minLength ∧ fault = .invalidEnvelope bytes.length := by
  unfold ofBytes
  split
  · rename_i hlong
    simp only [reduceCtorEq, false_iff, not_and]
    exact fun hshort => absurd hlong (Nat.not_le_of_lt hshort)
  · rename_i hshort
    simp only [Except.error.injEq, Nat.lt_of_not_le hshort, true_and]
    exact eq_comm

/-- What a text is read as is read from the bytes that it is the standard text of. -/
theorem ofBase64_eq_iff {result : Except Fault Envelope} :
    ofBase64 text = result ↔
      (∃ bytes, text = Base64.standard bytes ∧ ofBytes bytes = result) ∨
        (∀ bytes, text ≠ Base64.standard bytes) ∧ .error .encoding = result := by
  unfold ofBase64
  cases h : Base64.decode? text with
  | some bytes =>
    have hstandard := Base64.decode?_eq_some_iff.1 h
    constructor
    · intro hread
      exact .inl ⟨bytes, hstandard, hread⟩
    · rintro (⟨other, hother, hread⟩ | ⟨hnone, -⟩)
      · rw [← Base64.decode?_eq_some_iff, h] at hother
        cases hother
        exact hread
      · exact absurd hstandard (hnone bytes)
  | none =>
    have hnone := Base64.decode?_eq_none_iff.1 h
    constructor
    · intro hread
      exact .inr ⟨hnone, hread⟩
    · rintro (⟨other, hother, -⟩ | ⟨-, hread⟩)
      · exact absurd hother (hnone other)
      · exact hread

theorem toBase64_eq_standard (e : Envelope) : e.toBase64 = Base64.standard e.toBytes :=
  Base64.encode_eq_standard _

/-- A text is read as an envelope exactly if it is the text of that envelope. -/
theorem ofBase64_eq_ok_iff :
    ofBase64 text = .ok e ↔ Gcm.tagBytes ≤ e.ciphertext.length ∧ text = e.toBase64 := by
  simp only [ofBase64_eq_iff, ofBytes_eq_ok_iff, reduceCtorEq, and_false, or_false,
    toBase64_eq_standard]
  constructor
  · rintro ⟨bytes, rfl, hroom, rfl⟩
    exact ⟨hroom, rfl⟩
  · rintro ⟨hroom, rfl⟩
    exact ⟨_, rfl, hroom, rfl⟩

/-- Reading is inverse to writing, for byte strings and for texts, and accepts nothing else: at
least 28 bytes, and the standard base64 text of as many. -/
theorem forms_exact (bytes : Bytes) (text : String) (e : Envelope) (n : Nat) (fault : Fault) :
    ((∃ e, ofBytes bytes = .ok e) ↔ 28 ≤ bytes.length) ∧
    (ofBytes bytes = .ok e ↔ 16 ≤ e.ciphertext.length ∧ e.toBytes = bytes) ∧
    (ofBytes bytes = .error fault ↔
      bytes.length < 28 ∧ fault = .invalidEnvelope bytes.length) ∧
    (ofBase64 text = .ok e ↔ 16 ≤ e.ciphertext.length ∧ e.toBase64 = text) ∧
    e.toBase64 = Base64.standard e.toBytes ∧
    (ofBase64 text = .error .encoding ↔ ¬ ∃ bytes, Base64.standard bytes = text) ∧
    (ofBase64 text = .error (.invalidEnvelope n) ↔
      n < 28 ∧ ∃ bytes, bytes.length = n ∧ Base64.standard bytes = text) ∧
    ((∃! text, ofBase64 text = .ok e) ↔ 16 ≤ e.ciphertext.length) := by
  have hmin : minLength = 28 := rfl
  have htag : Gcm.tagBytes = 16 := rfl
  refine ⟨?_, ?_, ofBytes_eq_error_iff, ?_, toBase64_eq_standard e, ?_, ?_, ?_⟩
  · constructor
    · rintro ⟨e, h⟩
      obtain ⟨hroom, rfl⟩ := ofBytes_eq_ok_iff.1 h
      rw [length_toBytes, ← hmin, minLength]
      exact Nat.add_le_add_left hroom _
    · intro hlong
      cases h : ofBytes bytes with
      | ok e => exact ⟨e, rfl⟩
      | error fault => exact absurd (ofBytes_eq_error_iff.1 h).1 (Nat.not_lt_of_le hlong)
  · rw [ofBytes_eq_ok_iff, htag, eq_comm (a := bytes)]
  · rw [ofBase64_eq_ok_iff, htag, eq_comm (a := text)]
  · simp only [ofBase64_eq_iff, ofBytes_eq_error_iff, reduceCtorEq, and_false, exists_false,
      false_or, and_true, not_exists, ne_eq, eq_comm (a := text)]
  · simp only [ofBase64_eq_iff, ofBytes_eq_error_iff, hmin, Fault.invalidEnvelope.injEq,
      Except.error.injEq, reduceCtorEq, and_false, or_false, eq_comm (a := text)]
    constructor
    · rintro ⟨bytes, htext, hshort, rfl⟩
      exact ⟨hshort, bytes, rfl, htext⟩
    · rintro ⟨hshort, bytes, rfl, htext⟩
      exact ⟨bytes, htext, hshort, rfl⟩
  · simp only [ExistsUnique, ofBase64_eq_ok_iff, htag]
    constructor
    · rintro ⟨text, ⟨hroom, -⟩, -⟩
      exact hroom
    · intro hroom
      exact ⟨_, ⟨hroom, rfl⟩, fun text htext => htext.2⟩

end FieldVault.Envelope
