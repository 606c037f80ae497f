import FieldVault.Proofs.Bytes
import FieldVault.Proofs.Cipher.FieldKey
import Mathlib.Data.List.Nodup

/-!
# What a derivation hashes

A key is derived by hashing and nothing else. `Hashing.deriveKey?` is the derivation with every
hashed string written down; it gives the same key (`Hashing.deriveKey?_run`), and
`Cipher.hashedIn` is what it writes down. If two derivations give one key and no two different
strings hashed in them have the same digest, then the secrets are the same, the labels are the
same, and the contexts fill the hash block in the same way (`Cipher.inputs_of_key_eq`).
-/

set_option autoImplicit false

namespace FieldVault

/-- Two different strings of the list have the same SHA-256 digest. -/
def Sha2.Collide (strings : List Bytes) : Prop :=
  ∃ a ∈ strings, ∃ b ∈ strings, a ≠ b ∧ Sha2.sha256 a = Sha2.sha256 b

theorem Sha2.eq_of_sha256_eq {strings : List Bytes} (hfree : ¬ Collide strings) {a b : Bytes}
    (ha : a ∈ strings) (hb : b ∈ strings) (h : sha256 a = sha256 b) : a = b := by
  by_contra hne
  exact hfree ⟨a, ha, b, hb, hne, h⟩

/-- Strings with pairwise different digests do not collide. -/
theorem Sha2.not_collide_of_nodup {strings : List Bytes} (h : (strings.map sha256).Nodup) :
    ¬ Collide strings := by
  rintro ⟨a, ha, b, hb, hne, heq⟩
  exact hne (List.inj_on_of_nodup_map h ha hb heq)

theorem Sha2.collide_append_self (strings : List Bytes) :
    Collide (strings ++ strings) ↔ Collide strings := by
  simp only [Collide, List.mem_append, or_self]

/-! ### The strings of an authentication code -/

namespace Hmac

/-- The strings hashed for an authentication code: a key longer than a block, the inner and the
outer message. -/
def hashed (key message : Bytes) : List Bytes :=
  (if key.length ≤ blockBytes then [] else [key]) ++ [innerMessage key message,
    outerMessage key message]

theorem length_blockKey (key : Bytes) : (blockKey key).length = blockBytes := by
  have hblock : blockBytes = 64 := rfl
  rw [blockKey, Bytes.padTo, Bytes.zeros, List.length_append, List.length_replicate]
  split
  · omega
  · rw [Sha2.length_sha256]
    rfl

/-- Keys of one length within a block are told apart by their blocks. -/
theorem blockKey_inj {a b : Bytes} (ha : a.length ≤ blockBytes) (hlength : a.length = b.length) :
    blockKey a = blockKey b ↔ a = b := by
  constructor
  · intro h
    rw [blockKey, blockKey, if_pos ha, if_pos (hlength ▸ ha)] at h
    exact (List.append_inj h hlength).1
  · exact congrArg blockKey

theorem length_masked (pad : UInt8) (key : Bytes) : (masked pad key).length = blockBytes := by
  rw [masked, List.length_map, length_blockKey]

theorem blockKey_eq_of_masked_eq {pad : UInt8} {a b : Bytes} (h : masked pad a = masked pad b) :
    blockKey a = blockKey b :=
  List.map_injective_iff.2 (fun _ _ => (UInt8.xor_left_inj pad).1) h

/-- If neither the outer nor the inner messages collide, an authentication code determines the block
of its key and its message. -/
theorem inputs_of_apart {key key' message message' : Bytes}
    (houter : Sha2.sha256 (outerMessage key message) = Sha2.sha256 (outerMessage key' message') →
      outerMessage key message = outerMessage key' message')
    (hinner : Sha2.sha256 (innerMessage key message) = Sha2.sha256 (innerMessage key' message') →
      innerMessage key message = innerMessage key' message')
    (h : sha256 key message = sha256 key' message') :
    blockKey key = blockKey key' ∧ message = message' := by
  -- the outer message holds the digest of the inner one
  obtain ⟨hmasked, hdigest⟩ :=
    List.append_inj (houter h) (by rw [length_masked, length_masked])
  exact ⟨blockKey_eq_of_masked_eq hmasked,
    (List.append_inj (hinner hdigest) (by rw [length_masked, length_masked])).2⟩

/-- Without a collision an authentication code determines the block of its key and its message. -/
theorem inputs_of_sha256_eq {strings : List Bytes} (hfree : ¬ Sha2.Collide strings)
    {key key' message message' : Bytes} (hleft : hashed key message ⊆ strings)
    (hright : hashed key' message' ⊆ strings) (h : sha256 key message = sha256 key' message') :
    blockKey key = blockKey key' ∧ message = message' :=
  inputs_of_apart
    (Sha2.eq_of_sha256_eq hfree (hleft (by simp [hashed])) (hright (by simp [hashed])))
    (Sha2.eq_of_sha256_eq hfree (hleft (by simp [hashed])) (hright (by simp [hashed]))) h

end Hmac

/-! ### Derivations that write down what they hash -/

/-- A computation that writes down every string it hashes, in order. -/
abbrev Hashing := StateM (List Bytes)

namespace Hashing

/-- The digest of a message, which is written down. -/
def sha256 (message : Bytes) : Hashing Bytes := do
  modify (· ++ [message])
  return Sha2.sha256 message

/-- The key brought to one hash block. -/
def blockKey (key : Bytes) : Hashing Bytes := do
  let short ← if key.length ≤ Hmac.blockBytes then pure key else sha256 key
  return Bytes.padTo Hmac.blockBytes short

/-- The authentication code of a message under a key. -/
def authenticate (key message : Bytes) : Hashing Bytes := do
  let block ← blockKey key
  let inner ← sha256 (block.map (· ^^^ 0x36) ++ message)
  sha256 (block.map (· ^^^ 0x5c) ++ inner)

/-- The first `count` links of the output chain. -/
def chain (key info : Bytes) : Nat → Nat → Bytes → Hashing (List Bytes)
  | 0, _, _ => return []
  | count + 1, index, last => do
    let link ← authenticate key (last ++ info ++ [UInt8.ofNat index])
    return link :: (← chain key info count (index + 1) link)

/-- `length` bytes of output for a purpose. -/
def expand? (key info : Bytes) (length : Nat) : Hashing (Option Bytes) := do
  if length ≤ 255 * Hkdf.hashBytes then
    let links ← chain key info ((length + Hkdf.hashBytes - 1) / Hkdf.hashBytes) 1 []
    return some (links.flatten.take length)
  else return none

/-- The key of a secret for a context and a label. -/
def deriveKey? (secret : Bytes) (context label : String) : Hashing (Option Bytes) := do
  let key ← authenticate (Bytes.ofText context) secret
  expand? key (Bytes.ofText label) Cipher.keyBytes

theorem blockKey_run (key : Bytes) (before : List Bytes) :
    (blockKey key).run before =
      (Hmac.blockKey key, before ++ if key.length ≤ Hmac.blockBytes then [] else [key]) := by
  rw [blockKey, Hmac.blockKey]
  split
  · rw [List.append_nil]
    rfl
  · rfl

theorem authenticate_run (key message : Bytes) (before : List Bytes) :
    (authenticate key message).run before =
      (Hmac.sha256 key message, before ++ Hmac.hashed key message) := by
  have hblock := blockKey_run key before
  rw [authenticate, StateT.run_bind, hblock, Hmac.hashed, ← List.append_assoc]
  change (_, (_ ++ [_]) ++ [_]) = _
  rw [List.append_assoc _ [_] [_]]
  rfl

/-- The derivation that writes down what it hashes gives the same key. -/
theorem deriveKey?_run (secret : Bytes) (context label : String) (before : List Bytes) :
    (deriveKey? secret context label).run before =
      (Cipher.deriveKey? secret context label,
        before ++ (Hmac.hashed (Bytes.ofText context) secret ++
          Hmac.hashed (Hkdf.extract (Bytes.ofText context) secret)
            (Bytes.ofText label ++ [1]))) := by
  -- 32 bytes are one link of the chain
  have hone : deriveKey? secret context label =
      authenticate (Bytes.ofText context) secret >>= fun key =>
        authenticate key (Bytes.ofText label ++ [1]) >>= fun link =>
          pure (some ([link].flatten.take Cipher.keyBytes)) := rfl
  rw [hone, StateT.run_bind, authenticate_run]
  change ((authenticate _ _) >>= _).run _ = _
  rw [StateT.run_bind, authenticate_run, List.append_assoc]
  rfl

end Hashing

/-! ### What a key says about its derivation -/

namespace Cipher

/-- The strings hashed in a derivation, in order. -/
def hashedIn (secret : Bytes) (context label : String) : List Bytes :=
  ((Hashing.deriveKey? secret context label).run []).2

theorem hashedIn_eq (secret : Bytes) (context label : String) :
    hashedIn secret context label =
      Hmac.hashed (Bytes.ofText context) secret ++
        Hmac.hashed (Hkdf.extract (Bytes.ofText context) secret) (Bytes.ofText label ++ [1]) := by
  rw [hashedIn, Hashing.deriveKey?_run, List.nil_append]

/-- A derivation always gives a key of 32 bytes. -/
theorem exists_deriveKey? (secret : Bytes) (context label : String) :
    ∃ key : Bytes, key.length = 32 ∧ deriveKey? secret context label = some key :=
  ⟨_, Sha2.length_sha256 _, Hkdf.expand?_thirtyTwo _ _⟩

/-- The published digest of a message that is padded to a second block. -/
example :
    Sha2.sha256 (Bytes.ofText "abcdbcdecdefdefgefghfghighijhijkijkljklmklmnlmnomnopnopq") =
      Bytes.ofNat 32 0x248d6a61d20638b8e5c026930c3e6039a33ce45964ff2167f6ecedd419db06c1 := by
  decide +kernel

/-- The published output of 42 bytes for a salt, a material and a purpose. -/
example :
    Hkdf.expand?
        (Hkdf.extract (Bytes.ofNat 13 0x000102030405060708090a0b0c) (List.replicate 22 0x0b))
        (Bytes.ofNat 10 0xf0f1f2f3f4f5f6f7f8f9) 42 =
      some (Bytes.ofNat 32 0x3cb25f25faacd57a90434f64d0362f2a2d2d0a90cf1a5a4c5db02d56ecc4c5bf ++
        Bytes.ofNat 10 0x34007208d5b887185865) := by
  decide +kernel

/-- Contexts that fill the hash block in the same way give the same keys. -/
theorem deriveKey?_congr {context context' : String}
    (h : Hmac.blockKey (Bytes.ofText context) = Hmac.blockKey (Bytes.ofText context'))
    (secret : Bytes) (label : String) :
    deriveKey? secret context label = deriveKey? secret context' label := by
  have hmasked (pad : UInt8) :
      Hmac.masked pad (Bytes.ofText context) = Hmac.masked pad (Bytes.ofText context') :=
    congrArg (List.map (· ^^^ pad)) h
  have hextract : Hkdf.extract (Bytes.ofText context) secret =
      Hkdf.extract (Bytes.ofText context') secret := by
    rw [Hkdf.extract, Hkdf.extract, Hmac.sha256, Hmac.sha256, Hmac.outerMessage,
      Hmac.outerMessage, Hmac.innerMessage, Hmac.innerMessage, hmasked, hmasked]
  rw [deriveKey?, deriveKey?, hextract]

/-- Pseudorandom keys are digests, so their blocks tell them apart. -/
theorem extract_eq_of_blockKey_eq {salt salt' material material' : Bytes}
    (h : Hmac.blockKey (Hkdf.extract salt material) =
      Hmac.blockKey (Hkdf.extract salt' material')) :
    Hkdf.extract salt material = Hkdf.extract salt' material' := by
  have hlength (salt material : Bytes) : (Hkdf.extract salt material).length = 32 :=
    Sha2.length_sha256 _
  refine (Hmac.blockKey_inj ?_ ?_).1 h
  · rw [hlength]
    decide
  · rw [hlength, hlength]

/-- Without a collision a key determines the secret and the label of its derivation, and how the
context fills the hash block. -/
theorem inputs_of_key_eq {secret secret' : Bytes} {context context' label label' : String}
    (hfree : ¬ Sha2.Collide
      (hashedIn secret context label ++ hashedIn secret' context' label'))
    (h : deriveKey? secret context label = deriveKey? secret' context' label') :
    Hmac.blockKey (Bytes.ofText context) = Hmac.blockKey (Bytes.ofText context') ∧
      secret = secret' ∧ label = label' := by
  rw [hashedIn_eq, hashedIn_eq] at hfree
  rw [deriveKey?, deriveKey?, keyBytes, Hkdf.expand?_thirtyTwo, Hkdf.expand?_thirtyTwo] at h
  obtain ⟨hblock, hmessage⟩ := Hmac.inputs_of_sha256_eq hfree
    (fun a ha => by simp [ha]) (fun a ha => by simp [ha]) (Option.some.inj h)
  obtain ⟨hcontext, hsecret⟩ := Hmac.inputs_of_sha256_eq hfree
    (fun a ha => by simp [ha]) (fun a ha => by simp [ha]) (extract_eq_of_blockKey_eq hblock)
  exact ⟨hcontext, hsecret, Bytes.ofText_injective (List.append_cancel_right hmessage)⟩

end Cipher

end FieldVault
