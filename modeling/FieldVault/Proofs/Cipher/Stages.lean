import FieldVault.Proofs.Cipher.Derivation

/-!
# Keys of different secrets and labels

Two derivations for one context hash as many strings, so their strings stand opposite each other.
If the secrets or the labels differ and the keys are the same, then somewhere on the way back from
the keys two strings that stand opposite each other differ and have the same SHA-256 digest
(`keys_of_secrets_and_labels_apart`). This holds for contexts of any length, because the context is
the same in both.
-/

set_option autoImplicit false

namespace FieldVault

/-! ### Strings opposite each other -/

namespace Sha2

/-- Two lists of strings have different strings with the same SHA-256 digest at one place. -/
def CollideInStep (first second : List Bytes) : Prop :=
  ∃ pair ∈ first.zip second, pair.1 ≠ pair.2 ∧ sha256 pair.1 = sha256 pair.2

variable {first second rest rest' : List Bytes}

theorem CollideInStep.collide (h : CollideInStep first second) : Collide (first ++ second) := by
  obtain ⟨⟨a, b⟩, hmem, hne, heq⟩ := h
  obtain ⟨ha, hb⟩ := List.of_mem_zip hmem
  exact ⟨a, List.mem_append_left _ ha, b, List.mem_append_right _ hb, hne, heq⟩

theorem collideInStep_append (h : first.length = second.length) :
    CollideInStep (first ++ rest) (second ++ rest') ↔
      CollideInStep first second ∨ CollideInStep rest rest' := by
  rw [CollideInStep, List.zip_append h]
  simp only [List.mem_append, or_and_right, exists_or]
  rfl

/-- Strings at one place that do not collide are told apart by their digests. -/
theorem eq_of_not_collideInStep (hapart : ¬ CollideInStep first second) {a b : Bytes}
    (hmem : (a, b) ∈ first.zip second) (h : sha256 a = sha256 b) : a = b := by
  by_contra hne
  exact hapart ⟨(a, b), hmem, hne, h⟩

end Sha2

/-! ### Derivations opposite each other -/

namespace Hmac

variable {key key' message message' : Bytes}

theorem length_hashed (h : key.length = key'.length) :
    (hashed key message).length = (hashed key' message').length := by
  rw [hashed, hashed, h]
  split <;> simp only [List.length_append, List.length_cons, List.length_nil]

/-- The last two strings hashed for authentication codes under keys of one length stand opposite
each other. -/
theorem mem_zip_hashed (h : key.length = key'.length) :
    (innerMessage key message, innerMessage key' message') ∈
        (hashed key message).zip (hashed key' message') ∧
      (outerMessage key message, outerMessage key' message') ∈
        (hashed key message).zip (hashed key' message') := by
  rw [hashed, hashed, h]
  split <;> simp

/-- If no strings opposite each other collide, an authentication code under a key of known length
determines the block of the key and the message. -/
theorem inputs_of_not_collideInStep (hlength : key.length = key'.length)
    (hapart : ¬ Sha2.CollideInStep (hashed key message) (hashed key' message'))
    (h : sha256 key message = sha256 key' message') :
    blockKey key = blockKey key' ∧ message = message' :=
  inputs_of_apart (Sha2.eq_of_not_collideInStep hapart (mem_zip_hashed hlength).2)
    (Sha2.eq_of_not_collideInStep hapart (mem_zip_hashed hlength).1) h

end Hmac

namespace Cipher

variable {secret secret' : Bytes} {label label' : String}

/-- If no strings opposite each other collide in two derivations for one context, the key determines
the secret and the label. -/
theorem inputs_of_not_collideInStep {context : String}
    (hapart : ¬ Sha2.CollideInStep (hashedIn secret context label)
      (hashedIn secret' context label'))
    (h : deriveKey? secret context label = deriveKey? secret' context label') :
    secret = secret' ∧ label = label' := by
  rw [hashedIn_eq, hashedIn_eq, Sha2.collideInStep_append (Hmac.length_hashed rfl), not_or]
    at hapart
  rw [deriveKey?, deriveKey?, keyBytes, Hkdf.expand?_thirtyTwo, Hkdf.expand?_thirtyTwo] at h
  have hlength (secret : Bytes) : (Hkdf.extract (Bytes.ofText context) secret).length = 32 :=
    Sha2.length_sha256 _
  -- back from the keys to the pseudorandom keys, and from those to the secrets
  obtain ⟨hblock, hmessage⟩ := Hmac.inputs_of_not_collideInStep
    ((hlength secret).trans (hlength secret').symm) hapart.2 (Option.some.inj h)
  obtain ⟨-, hsecret⟩ := Hmac.inputs_of_not_collideInStep rfl hapart.1
    (extract_eq_of_blockKey_eq hblock)
  exact ⟨hsecret, Bytes.ofText_injective (List.append_cancel_right hmessage)⟩

/-- For every context, different secrets or labels have keys that are the same only if two different
strings with the same digest are hashed in the two derivations, one in each and at the same
place. -/
theorem keys_of_secrets_and_labels_apart (context : String)
    (hne : (secret, label) ≠ (secret', label')) :
    ∃ key key' : Bytes, key.length = 32 ∧ key'.length = 32 ∧
      deriveKey? secret context label = some key ∧
      deriveKey? secret' context label' = some key' ∧
      (key = key' →
        Sha2.CollideInStep (hashedIn secret context label) (hashedIn secret' context label') ∧
        Sha2.Collide (hashedIn secret context label ++ hashedIn secret' context label')) := by
  obtain ⟨key, hlength, hkey⟩ := exists_deriveKey? secret context label
  obtain ⟨key', hlength', hkey'⟩ := exists_deriveKey? secret' context label'
  refine ⟨key, key', hlength, hlength', hkey, hkey', fun hsame => ?_⟩
  have hcollide : Sha2.CollideInStep (hashedIn secret context label)
      (hashedIn secret' context label') := by
    by_contra hapart
    obtain ⟨hsecret, hlabel⟩ := inputs_of_not_collideInStep hapart
      (hkey.trans ((congrArg some hsame).trans hkey'.symm))
    exact hne (Prod.ext hsecret hlabel)
  exact ⟨hcollide, hcollide.collide⟩

/-- Two secrets with labels of different lengths have keys for `Customer` that are the same only if
strings collide. -/
theorem customer_keys_apart :
    (Bytes.ofText "root-secret-1", "field-encryption-key") ≠
        (Bytes.ofText "root-secret-2", "index-key") ∧
      ∃ key key' : Bytes, key.length = 32 ∧ key'.length = 32 ∧
        deriveKey? (Bytes.ofText "root-secret-1") "Customer" "field-encryption-key" = some key ∧
        deriveKey? (Bytes.ofText "root-secret-2") "Customer" "index-key" = some key' ∧
        (key = key' →
          Sha2.CollideInStep
            (hashedIn (Bytes.ofText "root-secret-1") "Customer" "field-encryption-key")
            (hashedIn (Bytes.ofText "root-secret-2") "Customer" "index-key") ∧
          Sha2.Collide
            (hashedIn (Bytes.ofText "root-secret-1") "Customer" "field-encryption-key" ++
              hashedIn (Bytes.ofText "root-secret-2") "Customer" "index-key")) := by
  have hne : (Bytes.ofText "root-secret-1", "field-encryption-key") ≠
      (Bytes.ofText "root-secret-2", "index-key") := by
    intro h
    exact absurd (Prod.ext_iff.1 h).2 (by decide)
  exact ⟨hne, keys_of_secrets_and_labels_apart "Customer" hne⟩

end Cipher

end FieldVault
