import FieldVault.Cipher

/-!
# The key of a field

A SHA-256 digest has 32 bytes, which is what a key needs, so one link of the derivation chain is
enough and key derivation never fails: `FieldCipher.fieldKey` is the key of a field, and
`deriveKey?_eq_fieldKey` says that derivation always gives it.
-/

set_option autoImplicit false

namespace FieldVault

/-- A SHA-256 digest has 32 bytes. -/
theorem Sha2.length_sha256 (message : Bytes) : (Sha2.sha256 message).length = 32 := by
  simp [Sha2.sha256, Sha2.digest, Sha2.Registers.toBytes, Bytes.length_ofNat, Sha2.Family.wordBytes]

/-- A chain for 32 bytes of output has a single link. -/
theorem Hkdf.expand?_thirtyTwo (key info : Bytes) :
    Hkdf.expand? key info 32 = some (Hmac.sha256 key (info ++ [1])) := by
  have hlink : (Hmac.sha256 key (info ++ [1])).length = 32 := Sha2.length_sha256 _
  have hchain : Hkdf.chain key info 1 1 [] = [Hmac.sha256 key (info ++ [1])] := rfl
  have hcount : (32 + Hkdf.hashBytes - 1) / Hkdf.hashBytes = 1 := rfl
  rw [Hkdf.expand?, if_pos (by decide), hcount, hchain, List.flatten_singleton,
    List.take_of_length_le (Nat.le_of_eq hlink)]

namespace FieldCipher

/-- The key of a field: the one link of the chain for the secret, the context and the label. -/
def fieldKey (cipher : FieldCipher) (secret context : String) : Aes.Key :=
  ⟨Hmac.sha256 (Hkdf.extract (Bytes.ofText context) (Bytes.ofText secret))
    (Bytes.ofText cipher.label ++ [1]), Sha2.length_sha256 _⟩

/-- Derivation gives the key of the field, whatever the secret, the context and the label. -/
theorem deriveKey?_eq_fieldKey (cipher : FieldCipher) (secret context : String) :
    Cipher.deriveKey? (Bytes.ofText secret) context cipher.label =
      some (cipher.fieldKey secret context).bytes :=
  Hkdf.expand?_thirtyTwo _ _

end FieldCipher

/-- The bytes of a key are read as that key. -/
@[simp]
theorem Aes.Key.ofBytes?_bytes (key : Aes.Key) : Aes.Key.ofBytes? key.bytes = some key :=
  dif_pos key.length_bytes

end FieldVault
