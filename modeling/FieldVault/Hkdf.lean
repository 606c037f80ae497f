import FieldVault.Sha2

/-!
# Key derivation

HMAC and HKDF over SHA-256. A derivation has two steps: the salt is the key of a hash of the
input keying material, which gives a pseudorandom key (`extract`), and that key is the key of a
chain of hashes of the purpose, which gives the output (`expand?`).
-/

set_option autoImplicit false

namespace FieldVault

namespace Hmac

/-- Bytes in a hash block, to which a key is brought. -/
def blockBytes : Nat := 64

/-- The key brought to one hash block: hashed if it is longer, then followed by zeros. -/
def blockKey (key : Bytes) : Bytes :=
  Bytes.padTo blockBytes (if key.length ≤ blockBytes then key else Sha2.sha256 key)

/-- The key block with every byte combined with the byte `pad`. -/
def masked (pad : UInt8) (key : Bytes) : Bytes := (blockKey key).map (· ^^^ pad)

/-- The message of the inner hash. -/
def innerMessage (key message : Bytes) : Bytes := masked 0x36 key ++ message

/-- The message of the outer hash. -/
def outerMessage (key message : Bytes) : Bytes :=
  masked 0x5c key ++ Sha2.sha256 (innerMessage key message)

/-- The authentication code of a message under a key. -/
def sha256 (key message : Bytes) : Bytes := Sha2.sha256 (outerMessage key message)

end Hmac

namespace Hkdf

/-- Bytes in one link of the output chain. -/
def hashBytes : Nat := 32

/-- The pseudorandom key of the input keying material under a salt. -/
def extract (salt material : Bytes) : Bytes := Hmac.sha256 salt material

/-- The first `count` links of the output chain: each hashes the link before it, the purpose
and its own number. -/
def chain (key info : Bytes) : Nat → Nat → Bytes → List Bytes
  | 0, _, _ => []
  | count + 1, index, last =>
    -- the first link has none before it
    let link := Hmac.sha256 key (last ++ info ++ [UInt8.ofNat index])
    link :: chain key info count (index + 1) link

/-- `length` bytes of output for a purpose, refused above 255 links of the chain. -/
def expand? (key info : Bytes) (length : Nat) : Option Bytes :=
  if length ≤ 255 * hashBytes then
    some ((chain key info ((length + hashBytes - 1) / hashBytes) 1 []).flatten.take length)
  else none

end Hkdf

end FieldVault
