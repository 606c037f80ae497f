import FieldVault.Proofs.Aes
import FieldVault.Proofs.Bytes
import FieldVault.Proofs.Gcm
import FieldVault.Proofs.Gcm.Field

/-!
# What the tag tells apart

A ciphertext under another nonce has another tag, because the masks of the two tags are encryptions
of different blocks (`nonce_eq_of_tag_eq`). A ciphertext that differs within one of its blocks has
another tag as well, unless the hash key is zero: the hashes differ in that block, and every later
step of the hash keeps them apart (`tag_ne_of_differ`).
-/

set_option autoImplicit false

namespace FieldVault.Gcm

/-- The hash key under some round keys. -/
def hashKeyOf (keys : Aes.RoundKeys) : Element :=
  elementOf (keys.encrypt (.ofBytes (Bytes.zeros blockBytes))).toBytes

/-- The tag is the hash, masked with the first counter block. -/
theorem tag_eq (keys : Aes.RoundKeys) (nonce : Nonce) (ciphertext : Bytes) :
    tag keys nonce ciphertext =
      Bytes.xor (bytesOf (hash (hashKeyOf keys) (authenticatedBlocks ciphertext)))
        (counterBlock keys nonce 1) := rfl

theorem length_bytesOf (e : Element) : (bytesOf e).length = 16 := Bytes.length_ofNat ..

/-! ### Another nonce -/

/-- Counter blocks of different nonces are different. -/
theorem counterBlock_injective (keys : Aes.RoundKeys) (counter : Nat) :
    Function.Injective (counterBlock keys · counter) := by
  have hlength (nonce : Nonce) : (nonce.bytes ++ Bytes.ofNat 4 counter).length = 16 := by
    rw [List.length_append, nonce.length_bytes, Bytes.length_ofNat]
    rfl
  rintro a b h
  have hblocks : Aes.Block.ofBytes (a.bytes ++ Bytes.ofNat 4 counter) =
      Aes.Block.ofBytes (b.bytes ++ Bytes.ofNat 4 counter) :=
    keys.encrypt_injective (Aes.Block.toBytes_injective h)
  have hbytes : a.bytes ++ Bytes.ofNat 4 counter = b.bytes ++ Bytes.ofNat 4 counter := by
    rw [← Aes.Block.toBytes_ofBytes (hlength a), hblocks, Aes.Block.toBytes_ofBytes (hlength b)]
  cases a
  cases b
  simpa using hbytes

/-- Only one nonce goes with a ciphertext and a tag. -/
theorem nonce_eq_of_tag_eq {keys : Aes.RoundKeys} {ciphertext : Bytes} {a b : Nonce}
    (h : tag keys a ciphertext = tag keys b ciphertext) : a = b := by
  -- both masks are laid over the same hash
  rw [tag_eq, tag_eq, Bytes.xor_comm, Bytes.xor_comm (bytesOf _)] at h
  have hlength (nonce : Nonce) (e : Element) :
      (counterBlock keys nonce 1).length ≤ (bytesOf e).length := by
    rw [length_counterBlock, length_bytesOf]
  exact counterBlock_injective keys 1 (Bytes.xor_left_cancel (hlength a _) (hlength b _) h)

/-- Only one hash goes with a nonce and a tag. -/
theorem hash_eq_of_tag_eq {keys : Aes.RoundKeys} {nonce : Nonce} {a b : Bytes}
    (h : tag keys nonce a = tag keys nonce b) :
    hash (hashKeyOf keys) (authenticatedBlocks a) =
      hash (hashKeyOf keys) (authenticatedBlocks b) := by
  have hlength (e : Element) : (bytesOf e).length ≤ (counterBlock keys nonce 1).length := by
    rw [length_counterBlock, length_bytesOf]
  rw [tag_eq, tag_eq] at h
  have hbytes := Bytes.xor_left_cancel (hlength _) (hlength _) h
  exact BitVec.eq_of_toNat_eq (Bytes.ofNat_injOn (BitVec.isLt _) (BitVec.isLt _) hbytes)

/-! ### Another block -/

/-- Blocks of sixteen bytes are told apart by their elements. -/
theorem elementOf_injOn {a b : Bytes} (ha : a.length = 16) (hb : b.length = 16)
    (h : elementOf a = elementOf b) : a = b := by
  have hrange {c : Bytes} (hc : c.length = 16) : Bytes.toNat c < 2 ^ 128 := by
    have hlt := Bytes.toNat_lt c
    rwa [hc] at hlt
  have hnat := congrArg BitVec.toNat h
  rw [elementOf, elementOf, BitVec.toNat_ofNat, BitVec.toNat_ofNat, Nat.mod_eq_of_lt (hrange ha),
    Nat.mod_eq_of_lt (hrange hb)] at hnat
  exact Bytes.toNat_injective (ha.trans hb.symm) hnat

variable {hashKey : Element}

/-- Hashing further blocks keeps apart what was apart. -/
theorem foldl_mul_injective (hkey : hashKey ≠ 0) (blocks : List Bytes) :
    Function.Injective fun y : Element =>
      blocks.foldl (fun y b => mul (y ^^^ elementOf b) hashKey) y := by
  induction blocks with
  | nil => exact Function.injective_id
  | cons b rest ih =>
    intro y z h
    have hstep : y ^^^ elementOf b = z ^^^ elementOf b := mul_left_injective hkey (ih h)
    exact (BitVec.xor_left_inj _).1 hstep

/-- Under a hash key other than zero, blocks that differ in one place have different hashes. -/
theorem element_eq_of_hash_eq (hkey : hashKey ≠ 0) {before after : List Bytes} {a b : Bytes}
    (h : hash hashKey (before ++ a :: after) = hash hashKey (before ++ b :: after)) :
    elementOf a = elementOf b := by
  rw [hash_eq_foldl_mul, hash_eq_foldl_mul, List.foldl_append, List.foldl_append] at h
  have hstep := mul_left_injective hkey (foldl_mul_injective hkey after h)
  exact (BitVec.xor_right_inj _).1 hstep

/-- The authenticated blocks of a ciphertext, around one of its blocks. -/
theorem authenticatedBlocks_append {before block after : Bytes} {count : Nat}
    (hbefore : before.length = count * blockBytes) (hne : block ≠ [])
    (hle : block.length ≤ blockBytes) (hfull : after ≠ [] → block.length = blockBytes) :
    authenticatedBlocks (before ++ (block ++ after)) =
      (Bytes.blocks blockBytes before).map (Bytes.padTo blockBytes) ++
        Bytes.padTo blockBytes block ::
          ((Bytes.blocks blockBytes after).map (Bytes.padTo blockBytes) ++
            [Bytes.ofNat 8 0 ++
              Bytes.ofNat 8 (8 * (before.length + (block.length + after.length)))]) := by
  rw [authenticatedBlocks, Bytes.blocks_append (by decide) _ hbefore,
    Bytes.blocks_cons hne hle hfull]
  simp

/-- The hash key is zero only if the block of zeros is encrypted to itself. -/
theorem hashKeyOf_ne_zero {keys : Aes.RoundKeys}
    (h : keys.encrypt (.ofBytes (Bytes.zeros blockBytes)) ≠ .ofBytes (Bytes.zeros blockBytes)) :
    hashKeyOf keys ≠ 0 := by
  intro hzero
  have hzeros : elementOf (Aes.Block.ofBytes (Bytes.zeros blockBytes)).toBytes = 0 := by decide
  exact h (Aes.Block.toBytes_injective (elementOf_injOn rfl rfl (hzero.trans hzeros.symm)))

/-- Under a hash key other than zero, only one content of a block goes with the rest of a
ciphertext and a tag. -/
theorem block_eq_of_tag_eq {keys : Aes.RoundKeys} {nonce : Nonce} (hkey : hashKeyOf keys ≠ 0)
    {before a b after : Bytes} {count : Nat} (hbefore : before.length = count * blockBytes)
    (hlength : a.length = b.length) (hle : a.length ≤ blockBytes)
    (hfull : after ≠ [] → a.length = blockBytes)
    (h : tag keys nonce (before ++ (a ++ after)) = tag keys nonce (before ++ (b ++ after))) :
    a = b := by
  by_cases hnil : a = []
  · rw [hnil, List.length_nil] at hlength
    rw [hnil, List.length_eq_zero_iff.1 hlength.symm]
  · have hnil' : b ≠ [] := by
      rw [← List.length_pos_iff, ← hlength, List.length_pos_iff]
      exact hnil
    have hpad {c : Bytes} (hc : c.length ≤ blockBytes) :
        (Bytes.padTo blockBytes c).length = 16 := by
      rw [Bytes.padTo, List.length_append, Bytes.zeros, List.length_replicate]
      exact Nat.add_sub_of_le hc
    have hhash := hash_eq_of_tag_eq h
    rw [authenticatedBlocks_append hbefore hnil hle hfull,
      authenticatedBlocks_append hbefore hnil' (hlength ▸ hle) (hlength ▸ hfull),
      ← hlength] at hhash
    have hpadded := elementOf_injOn (hpad hle) (hpad (hlength ▸ hle))
      (element_eq_of_hash_eq hkey hhash)
    rw [Bytes.padTo, Bytes.padTo, hlength] at hpadded
    exact List.append_cancel_right hpadded

/-- Under a hash key other than zero, ciphertexts of one length that differ, but only within one
block, have different tags. -/
theorem tag_ne_of_differ {keys : Aes.RoundKeys} {nonce : Nonce} (hkey : hashKeyOf keys ≠ 0)
    {a b : Bytes} {k : Nat} (hlength : a.length = b.length) (hne : a ≠ b)
    (hblock : ∀ i, a[i]? ≠ b[i]? → k * blockBytes ≤ i ∧ i < (k + 1) * blockBytes) :
    tag keys nonce a ≠ tag keys nonce b := by
  obtain ⟨before, x, y, after, rfl, rfl, hbefore, hxy, hle, hfull⟩ :=
    Bytes.exists_cut hlength hne hblock
  intro h
  rw [block_eq_of_tag_eq hkey hbefore hxy hle hfull h] at hne
  exact hne rfl

end FieldVault.Gcm
