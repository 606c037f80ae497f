import FieldVault.Envelope
import FieldVault.Proofs.Base64

/-!
# The forms of an envelope

An envelope with room for a tag is read back from its bytes (`ofBytes_toBytes`) and from its
base64 text (`ofBase64_toBase64`). The text is longer than any text whose bytes fit in the
ciphertext (`length_lt_length_toBase64`).
-/

set_option autoImplicit false

namespace FieldVault.Envelope

/-- The bytes of an envelope are those of its nonce and then its ciphertext. -/
@[simp]
theorem length_toBytes (e : Envelope) :
    e.toBytes.length = Gcm.nonceBytes + e.ciphertext.length := by
  rw [toBytes, List.length_append, e.nonce.length_bytes]

/-- The first twelve bytes of an envelope are its nonce. -/
@[simp]
theorem take_toBytes (e : Envelope) : e.toBytes.take Gcm.nonceBytes = e.nonce.bytes :=
  List.take_left' e.nonce.length_bytes

/-- What follows the first twelve bytes of an envelope is its ciphertext. -/
@[simp]
theorem drop_toBytes (e : Envelope) : e.toBytes.drop Gcm.nonceBytes = e.ciphertext :=
  List.drop_left' e.nonce.length_bytes

/-- An envelope with room for a tag is read back from its bytes. -/
theorem ofBytes_toBytes {e : Envelope} (h : Gcm.tagBytes ≤ e.ciphertext.length) :
    ofBytes e.toBytes = .ok e := by
  have hlong : minLength ≤ e.toBytes.length := by
    rw [length_toBytes]
    exact Nat.add_le_add_left h _
  rw [ofBytes, dif_pos hlong]
  simp only [take_toBytes, drop_toBytes]

/-- Reading the text of an envelope is reading its bytes. -/
theorem ofBase64_toBase64_eq (e : Envelope) : ofBase64 e.toBase64 = ofBytes e.toBytes := by
  rw [ofBase64, toBase64, Base64.decode?_encode]

/-- An envelope with room for a tag is read back from its base64 text. -/
theorem ofBase64_toBase64 {e : Envelope} (h : Gcm.tagBytes ≤ e.ciphertext.length) :
    ofBase64 e.toBase64 = .ok e := by
  rw [ofBase64_toBase64_eq, ofBytes_toBytes h]

/-- What is read from a text is read again from its own bytes. -/
theorem ofBytes_toBytes_of_ofBase64 {text : String} {e : Envelope} (h : ofBase64 text = .ok e) :
    ofBytes e.toBytes = .ok e := by
  unfold ofBase64 at h
  split at h
  · rename_i bytes _
    rw [toBytes_of_ofBytes h, h]
  · cases h

/-! ### Lengths of texts -/

/-- A text has at most as many characters as bytes. -/
theorem length_le_length_ofText (text : String) : text.length ≤ (Bytes.ofText text).length := by
  rw [Bytes.ofText_eq_flatMap, ← String.length_toList]
  induction text.toList with
  | nil => exact Nat.zero_le _
  | cons c cs ih =>
    have hpos : 0 < (String.utf8EncodeChar c).length := by
      rw [String.length_utf8EncodeChar]
      exact c.utf8Size_pos
    rw [List.flatMap_cons, List.length_append, List.length_cons]
    omega

/-- A text whose bytes fit in the ciphertext has fewer bytes than the text of the envelope has
characters. -/
theorem length_ofText_lt_length_toBase64 {e : Envelope} {text : String}
    (h : (Bytes.ofText text).length ≤ e.ciphertext.length) :
    (Bytes.ofText text).length < e.toBase64.length := by
  have hnonce : Gcm.nonceBytes = 12 := rfl
  rw [toBase64, Base64.length_encode, length_toBytes]
  omega

/-- A text whose bytes fit in the ciphertext is shorter than the text of the envelope. -/
theorem length_lt_length_toBase64 {e : Envelope} {text : String}
    (h : (Bytes.ofText text).length ≤ e.ciphertext.length) : text.length < e.toBase64.length :=
  Nat.lt_of_le_of_lt (length_le_length_ofText text) (length_ofText_lt_length_toBase64 h)

end FieldVault.Envelope
