import FieldVault.Aes

/-!
# Authenticated encryption with AES-256-GCM

The plaintext is combined with a keystream of encrypted counter blocks, and the ciphertext is
authenticated by a polynomial hash in the field of 2¹²⁸ elements, itself masked with an
encrypted counter block. A nonce has twelve bytes, a tag sixteen, and no further data is
authenticated.
-/

set_option autoImplicit false

namespace FieldVault.Gcm

/-- An element of the field of 2¹²⁸ elements; the leading bit is the constant coefficient. -/
abbrev Element := BitVec 128

/-- The product with the indeterminate, reduced by `x¹²⁸ = x⁷ + x² + x + 1`. -/
def timesX (v : Element) : Element :=
  (v >>> 1) ^^^ (if v.getLsbD 0 then 0xe1#8 ++ 0#120 else 0)

/-- The product with a power of the indeterminate. -/
def timesPower : Nat → Element → Element
  | 0, v => v
  | power + 1, v => timesPower power (timesX v)

/-- The products with the first `count` powers of the indeterminate. -/
def multiples : Nat → Element → List Element
  | 0, _ => []
  | count + 1, v => v :: multiples count (timesX v)

/-- The number of coefficients that are looked at together. -/
def wordBits : Nat := 32

/-- The places in an element where its words start, the leading one first. -/
def wordStarts : List Nat := [96, 64, 32, 0]

/-- The multiples of an element that go with the coefficients of each word. -/
def wordMultiples : List Nat → Element → List (Nat × List Element)
  | [], _ => []
  | start :: starts, v =>
    (start, multiples wordBits v) :: wordMultiples starts (timesPower wordBits v)

/-- `sum` and those of `count` elements for which the bit of a word is set, added up. The last of
them goes with the lowest bit. -/
def addWhere (word : BitVec wordBits) : Nat → List Element → Element → Element
  | count + 1, v :: rest, sum =>
    addWhere word count rest (if word.getLsbD count then sum ^^^ v else sum)
  | _, _, sum => sum

/-- The product of `u` with an element of which the multiples are given. -/
def mulBy (multiples : List (Nat × List Element)) (u : Element) : Element :=
  multiples.foldl
    (fun sum (start, elements) => addWhere (u.extractLsb' start wordBits) wordBits elements sum) 0

/-- The product of two field elements. -/
def mul (u v : Element) : Element := mulBy (wordMultiples wordStarts v) u

/-- The element of a block of sixteen bytes. -/
def elementOf (block : Bytes) : Element := BitVec.ofNat 128 (Bytes.toNat block)

/-- The sixteen bytes of an element. -/
def bytesOf (e : Element) : Bytes := Bytes.ofNat 16 e.toNat

/-- Bytes in a block. -/
def blockBytes : Nat := 16

/-- Bytes in a tag. -/
def tagBytes : Nat := 16

/-- Bytes in a nonce. -/
def nonceBytes : Nat := 12

/-- A nonce of twelve bytes. -/
structure Nonce where
  bytes : Bytes
  length_bytes : bytes.length = nonceBytes
deriving DecidableEq

/-- The nonce of twelve bytes; any other length is refused. -/
def Nonce.ofBytes? (bytes : Bytes) : Option Nonce :=
  if h : bytes.length = nonceBytes then some ⟨bytes, h⟩ else none

/-- The greatest length of a plaintext. -/
def plaintextLimit : Nat := 1 <<< 36

/-- The greatest length of a ciphertext, its tag apart. -/
def ciphertextLimit : Nat := (1 <<< 36) + 16

/-- The blocks that are authenticated for a ciphertext: its own, the last one filled with
zeros, and one with its length in bits. -/
def authenticatedBlocks (ciphertext : Bytes) : List Bytes :=
  (Bytes.blocks blockBytes ciphertext).map (Bytes.padTo blockBytes)
    ++ [Bytes.ofNat 8 0 ++ Bytes.ofNat 8 (8 * ciphertext.length)]

/-- The polynomial hash of blocks under the hash key, whose multiples are taken once. -/
def hash (hashKey : Element) (blocks : List Bytes) : Element :=
  let multiples := wordMultiples wordStarts hashKey
  blocks.foldl (fun y b => mulBy multiples (y ^^^ elementOf b)) 0

/-- Every block is added to what has been hashed and multiplied by the hash key. -/
theorem hash_eq_foldl_mul (hashKey : Element) (blocks : List Bytes) :
    hash hashKey blocks = blocks.foldl (fun y b => mul (y ^^^ elementOf b) hashKey) 0 := rfl

/-- The encryption of the counter block with number `counter`. -/
def counterBlock (keys : Aes.RoundKeys) (nonce : Nonce) (counter : Nat) : Bytes :=
  (keys.encrypt (.ofBytes (nonce.bytes ++ Bytes.ofNat 4 counter))).toBytes

/-- The first `count` blocks of the keystream, from a given counter on. -/
def keystream (keys : Aes.RoundKeys) (nonce : Nonce) : Nat → Nat → Bytes
  | 0, _ => []
  | count + 1, counter =>
    counterBlock keys nonce counter ++ keystream keys nonce count (counter + 1)

/-- The data combined with the keystream; doing it twice gives the data back. -/
def applyKeystream (keys : Aes.RoundKeys) (nonce : Nonce) (data : Bytes) : Bytes :=
  -- the counter one is left for the mask of the tag
  Bytes.xor data (keystream keys nonce ((data.length + 15) / 16) 2)

/-- The tag of a ciphertext. -/
def tag (keys : Aes.RoundKeys) (nonce : Nonce) (ciphertext : Bytes) : Bytes :=
  let hashKey := elementOf (keys.encrypt (.ofBytes (Bytes.zeros blockBytes))).toBytes
  Bytes.xor (bytesOf (hash hashKey (authenticatedBlocks ciphertext))) (counterBlock keys nonce 1)

/-- The ciphertext of a plaintext followed by its tag; refused above the length limit. -/
def encrypt? (key : Aes.Key) (nonce : Nonce) (plaintext : Bytes) : Option Bytes :=
  if plaintext.length ≤ plaintextLimit then
    let keys := key.roundKeys
    let ciphertext := applyKeystream keys nonce plaintext
    some (ciphertext ++ tag keys nonce ciphertext)
  else none

/-- The plaintext of a ciphertext followed by its tag, if the tag is the right one and the
length is within the limit. -/
def decrypt? (key : Aes.Key) (nonce : Nonce) (sealed : Bytes) : Option Bytes :=
  if sealed.length < tagBytes then none
  else
    let ciphertext := sealed.take (sealed.length - tagBytes)
    if ciphertext.length ≤ ciphertextLimit then
      let keys := key.roundKeys
      -- the tag is checked before anything is decrypted
      if tag keys nonce ciphertext = sealed.drop (sealed.length - tagBytes) then
        some (applyKeystream keys nonce ciphertext)
      else none
    else none

end FieldVault.Gcm
