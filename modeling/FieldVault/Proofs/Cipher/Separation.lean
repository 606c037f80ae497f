import FieldVault.Proofs.Cipher.Derivation

/-!
# Keys of different contexts

The context of a key is the salt of its derivation, and a salt of up to 64 bytes is filled up with
zeros to one hash block. So contexts that differ only in null characters at the end always have the
same keys; any other two contexts of that length have different keys, unless two different strings
with the same SHA-256 digest are hashed on the way (`keys_apart_unless_nulls`).
-/

set_option autoImplicit false

namespace FieldVault.Cipher

/-! ### Texts that fill a block alike -/

/-- `count` null characters. -/
def nulls (count : Nat) : String := String.ofList (List.replicate count '\x00')

/-- One text is the other one followed by null characters. -/
def NullPadded (a b : String) : Prop := ∃ count, a = b ++ nulls count ∨ b = a ++ nulls count

theorem ofText_nulls (count : Nat) : Bytes.ofText (nulls count) = Bytes.zeros count := by
  induction count with
  | zero => rfl
  | succ count ih =>
    have hcons : nulls (count + 1) = nulls 1 ++ nulls count := by
      rw [nulls, nulls, nulls, ← String.ofList_append]
      rfl
    rw [hcons, Bytes.ofText_append, ih]
    rfl

/-- Byte strings that zeros fill up to the same string differ in zeros at the end. -/
theorem exists_zeros_of_append_eq {a b : Bytes} {m n : Nat}
    (h : a ++ Bytes.zeros m = b ++ Bytes.zeros n) :
    ∃ count, a = b ++ Bytes.zeros count ∨ b = a ++ Bytes.zeros count := by
  rcases List.append_eq_append_iff.1 h with ⟨rest, hb, hm⟩ | ⟨rest, ha, hn⟩
  · obtain ⟨-, hrest, -⟩ := List.replicate_eq_append_iff.1 hm
    exact ⟨rest.length, .inr (hb.trans (congrArg (a ++ ·) hrest))⟩
  · obtain ⟨-, hrest, -⟩ := List.replicate_eq_append_iff.1 hn
    exact ⟨rest.length, .inl (ha.trans (congrArg (b ++ ·) hrest))⟩

/-- Zeros at the end of a key within a block do not change the block. -/
theorem blockKey_append_zeros {key : Bytes} {count : Nat}
    (h : (key ++ Bytes.zeros count).length ≤ Hmac.blockBytes) :
    Hmac.blockKey (key ++ Bytes.zeros count) = Hmac.blockKey key := by
  have hkey : key.length + count ≤ Hmac.blockBytes := by
    rwa [List.length_append, Bytes.zeros, List.length_replicate] at h
  rw [Hmac.blockKey, Hmac.blockKey, if_pos h, if_pos (Nat.le_of_add_right_le hkey), Bytes.padTo,
    Bytes.padTo, List.append_assoc]
  unfold Bytes.zeros
  rw [List.replicate_append_replicate, List.length_append, List.length_replicate]
  congr 2
  omega

/-- Texts of at most 64 bytes fill the hash block in the same way exactly if they differ only in
null characters at the end. -/
theorem blockKey_eq_iff_nullPadded {a b : String}
    (ha : (Bytes.ofText a).length ≤ Hmac.blockBytes)
    (hb : (Bytes.ofText b).length ≤ Hmac.blockBytes) :
    Hmac.blockKey (Bytes.ofText a) = Hmac.blockKey (Bytes.ofText b) ↔ NullPadded a b := by
  constructor
  · intro h
    rw [Hmac.blockKey, Hmac.blockKey, if_pos ha, if_pos hb] at h
    obtain ⟨count, hpad⟩ := exists_zeros_of_append_eq h
    simp only [← ofText_nulls, ← Bytes.ofText_append] at hpad
    exact ⟨count, hpad.imp Bytes.ofText_injective Bytes.ofText_injective⟩
  · rintro ⟨count, rfl | rfl⟩
    · rw [Bytes.ofText_append, ofText_nulls] at ha ⊢
      exact blockKey_append_zeros ha
    · rw [Bytes.ofText_append, ofText_nulls] at hb ⊢
      exact (blockKey_append_zeros hb).symm

/-! ### Keys -/

/-- Contexts of at most 64 bytes that differ only in null characters at the end have the same
keys. -/
theorem exists_common_key {context context' : String}
    (hleft : (Bytes.ofText context).length ≤ 64) (hright : (Bytes.ofText context').length ≤ 64)
    (hpadded : NullPadded context context') (secret : Bytes) (label : String) :
    ∃ key : Bytes, key.length = 32 ∧ deriveKey? secret context label = some key ∧
      deriveKey? secret context' label = some key := by
  obtain ⟨key, hlength, hkey⟩ := exists_deriveKey? secret context label
  have hblock := (blockKey_eq_iff_nullPadded hleft hright).2 hpadded
  exact ⟨key, hlength, hkey, (deriveKey?_congr hblock secret label).symm.trans hkey⟩

/-- Contexts of at most 64 bytes that differ only in null characters at the end have the same key
for every secret and label. Any other two have the same key only if two different strings hashed in
the two derivations have the same digest. -/
theorem keys_apart_unless_nulls (secret : Bytes) (label : String) {context context' : String}
    (hleft : (Bytes.ofText context).length ≤ 64) (hright : (Bytes.ofText context').length ≤ 64) :
    (NullPadded context context' →
      ∃ key : Bytes, key.length = 32 ∧ deriveKey? secret context label = some key ∧
        deriveKey? secret context' label = some key) ∧
    (¬ NullPadded context context' →
      ∀ key, deriveKey? secret context label = some key →
        deriveKey? secret context' label = some key →
        Sha2.Collide (hashedIn secret context label ++ hashedIn secret context' label)) := by
  constructor
  · intro hpadded
    exact exists_common_key hleft hright hpadded secret label
  · intro hapart key hkey hkey'
    by_contra hfree
    obtain ⟨hblock, -, -⟩ := inputs_of_key_eq hfree (hkey.trans hkey'.symm)
    exact hapart ((blockKey_eq_iff_nullPadded hleft hright).1 hblock)

/-- Two fields of one entity have a key in common only if strings collide. -/
theorem ssn_and_tin_keys_apart :
    (Bytes.ofText "Customer.ssn").length ≤ 64 ∧ (Bytes.ofText "Customer.tin").length ≤ 64 ∧
      ¬ NullPadded "Customer.ssn" "Customer.tin" ∧
      ∀ key, deriveKey? (Bytes.ofText "k") "Customer.ssn" "field-encryption-key" = some key →
        deriveKey? (Bytes.ofText "k") "Customer.tin" "field-encryption-key" = some key →
        Sha2.Collide (hashedIn (Bytes.ofText "k") "Customer.ssn" "field-encryption-key" ++
          hashedIn (Bytes.ofText "k") "Customer.tin" "field-encryption-key") := by
  have hssn : (Bytes.ofText "Customer.ssn").length ≤ 64 := by decide +kernel
  have htin : (Bytes.ofText "Customer.tin").length ≤ 64 := by decide +kernel
  have hapart : ¬ NullPadded "Customer.ssn" "Customer.tin" := by
    rw [← blockKey_eq_iff_nullPadded hssn htin]
    decide +kernel
  exact ⟨hssn, htin, hapart,
    (keys_apart_unless_nulls (Bytes.ofText "k") "field-encryption-key" hssn htin).2 hapart⟩

/-- The contexts `c` and `c` followed by a null character have the same key, although all strings
hashed in the two derivations have digests of their own. -/
theorem null_after_context_keeps_key :
    "c" ≠ "c\x00" ∧ (Bytes.ofText "c").length ≤ 64 ∧ (Bytes.ofText "c\x00").length ≤ 64 ∧
      (∃ key : Bytes, key.length = 32 ∧
        deriveKey? (Bytes.ofText "k") "c" "field-encryption-key" = some key ∧
        deriveKey? (Bytes.ofText "k") "c\x00" "field-encryption-key" = some key) ∧
      ¬ Sha2.Collide (hashedIn (Bytes.ofText "k") "c" "field-encryption-key" ++
        hashedIn (Bytes.ofText "k") "c\x00" "field-encryption-key") := by
  have hshort : (Bytes.ofText "c").length ≤ 64 := by decide +kernel
  have hlong : (Bytes.ofText "c\x00").length ≤ 64 := by decide +kernel
  refine ⟨by decide, hshort, hlong,
    exists_common_key hshort hlong ⟨1, .inr rfl⟩ (Bytes.ofText "k") "field-encryption-key", ?_⟩
  -- the same four strings are hashed in both
  have hsame : hashedIn (Bytes.ofText "k") "c\x00" "field-encryption-key" =
      hashedIn (Bytes.ofText "k") "c" "field-encryption-key" := by
    decide +kernel
  rw [hsame, Sha2.collide_append_self]
  exact Sha2.not_collide_of_nodup (by decide +kernel)

end FieldVault.Cipher
