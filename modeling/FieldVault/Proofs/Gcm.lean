import FieldVault.Gcm

/-!
# Opening what was sealed

Counter mode combines the data with a keystream that is at least as long as the data, so doing it
twice gives the data back (`applyKeystream_applyKeystream`). The tag that is checked is the one
that was computed, because both are taken of the same ciphertext. Hence decryption under the same
key and nonce gives back every plaintext that encryption accepts (`decrypt?_of_encrypt?`), and
encryption accepts exactly the plaintexts within the length limit (`encrypt?_eq_some`).

Decryption of a ciphertext with any tag is a comparison of tags (`decrypt?_append`).
-/

set_option autoImplicit false

namespace FieldVault

namespace Bytes

/-- Combining with the same key bytes twice gives the data back, if they are at least as long. -/
theorem xor_xor_cancel {data key : Bytes} (h : data.length ≤ key.length) :
    xor (xor data key) key = data := by
  induction data generalizing key with
  | nil => rfl
  | cons a data ih =>
    cases key with
    | nil => simp at h
    | cons k key =>
      have hrest : data.length ≤ key.length := by simpa using h
      have hbyte : (a ^^^ k) ^^^ k = a := by
        rw [UInt8.xor_assoc, UInt8.xor_self, UInt8.xor_zero]
      change ((a ^^^ k) ^^^ k) :: xor (xor data key) key = a :: data
      rw [hbyte, ih hrest]

/-- Data that give the same when they are combined with the same key bytes are the same. -/
theorem xor_left_cancel {a b key : Bytes} (ha : a.length ≤ key.length) (hb : b.length ≤ key.length)
    (h : xor a key = xor b key) : a = b := by
  rw [← xor_xor_cancel ha, h, xor_xor_cancel hb]

theorem xor_comm (a b : Bytes) : xor a b = xor b a :=
  List.zipWith_comm_of_comm UInt8.xor_comm

end Bytes

namespace Aes

@[simp]
theorem Block.length_toBytes (b : Block) : b.toBytes.length = 16 := rfl

end Aes

namespace Gcm

variable (keys : Aes.RoundKeys) (nonce : Nonce)

@[simp]
theorem length_counterBlock (counter : Nat) : (counterBlock keys nonce counter).length = 16 :=
  Aes.Block.length_toBytes _

/-- A keystream of `count` blocks has sixteen bytes for each. -/
theorem length_keystream (count counter : Nat) :
    (keystream keys nonce count counter).length = 16 * count := by
  induction count generalizing counter with
  | zero => rfl
  | succ count ih =>
    rw [keystream, List.length_append, length_counterBlock, ih]
    omega

/-- The keystream taken for some data reaches to its end. -/
theorem length_le_keystream (length counter : Nat) :
    length ≤ (keystream keys nonce ((length + 15) / 16) counter).length := by
  rw [length_keystream]
  omega

@[simp]
theorem length_applyKeystream (data : Bytes) :
    (applyKeystream keys nonce data).length = data.length := by
  have h := length_le_keystream keys nonce data.length 2
  rw [applyKeystream, Bytes.length_xor]
  omega

/-- Counter mode undoes itself. -/
theorem applyKeystream_applyKeystream (data : Bytes) :
    applyKeystream keys nonce (applyKeystream keys nonce data) = data := by
  -- both runs take the same keystream, as it depends on the length of the data alone
  have hlength := length_applyKeystream keys nonce data
  rw [applyKeystream, hlength, applyKeystream]
  exact Bytes.xor_xor_cancel (length_le_keystream keys nonce data.length 2)

@[simp]
theorem length_tag (ciphertext : Bytes) : (tag keys nonce ciphertext).length = tagBytes := by
  rw [tag, Bytes.length_xor, bytesOf, Bytes.length_ofNat, length_counterBlock]
  rfl

variable {keys nonce}

/-- What encryption makes of a plaintext within the limit. -/
theorem encrypt?_eq_some {key : Aes.Key} {plaintext : Bytes}
    (h : plaintext.length ≤ plaintextLimit) :
    encrypt? key nonce plaintext =
      some (applyKeystream key.roundKeys nonce plaintext ++
        tag key.roundKeys nonce (applyKeystream key.roundKeys nonce plaintext)) :=
  if_pos h

/-- A result of encryption is sixteen bytes longer than its plaintext. -/
theorem length_of_encrypt? {key : Aes.Key} {plaintext sealed : Bytes}
    (h : encrypt? key nonce plaintext = some sealed) :
    sealed.length = plaintext.length + tagBytes := by
  unfold encrypt? at h
  split at h
  · obtain rfl := Option.some.inj h
    rw [List.length_append, length_applyKeystream, length_tag]
  · cases h

/-- Decryption of a ciphertext with a tag of sixteen bytes after it: the tag is compared with the
one of the ciphertext. -/
theorem decrypt?_append {key : Aes.Key} {ciphertext given : Bytes}
    (hgiven : given.length = tagBytes) (hlimit : ciphertext.length ≤ ciphertextLimit) :
    decrypt? key nonce (ciphertext ++ given) =
      if tag key.roundKeys nonce ciphertext = given then
        some (applyKeystream key.roundKeys nonce ciphertext) else none := by
  have hlong : ¬ (ciphertext ++ given).length < tagBytes := by
    rw [List.length_append]
    omega
  have hcut : (ciphertext ++ given).length - tagBytes = ciphertext.length := by
    rw [List.length_append]
    omega
  rw [decrypt?, if_neg hlong]
  simp only [hcut, List.take_left, List.drop_left, if_pos hlimit]

/-- Decryption under the same key and nonce gives the plaintext back. -/
theorem decrypt?_of_encrypt? {key : Aes.Key} {plaintext sealed : Bytes}
    (h : encrypt? key nonce plaintext = some sealed) :
    decrypt? key nonce sealed = some plaintext := by
  unfold encrypt? at h
  split at h
  · rename_i hlimit
    obtain rfl := Option.some.inj h
    -- a plaintext within its limit makes a ciphertext within the greater one of decryption
    have hshort : (applyKeystream key.roundKeys nonce plaintext).length ≤ ciphertextLimit := by
      rw [length_applyKeystream]
      exact Nat.le_trans hlimit (Nat.le_add_right _ _)
    rw [decrypt?_append (length_tag _ _ _) hshort, if_pos rfl, applyKeystream_applyKeystream]
  · cases h

/-- The published ciphertext and tag of a block of zeros under the key and the nonce of zeros. -/
example :
    encrypt? ⟨Bytes.zeros 32, rfl⟩ ⟨Bytes.zeros nonceBytes, rfl⟩ (Bytes.zeros blockBytes) =
      some (Bytes.ofNat 32 0xcea7403d4d606b6e074ec5d3baf39d18d0d1c8a799996bf0265b98b5d48ab919) := by
  decide +kernel

end Gcm

end FieldVault
