import FieldVault.Bytes

/-!
# The SHA-2 family

SHA-256 and SHA-512 are one algorithm over words of 32 and of 64 bits. `Family` holds what
differs: the word, the rotations, the constants and the initial registers. A message is padded
to whole blocks of sixteen words and every block is compressed into the registers
(`digest`). A `Hasher` takes the message in pieces of any length instead.
-/

set_option autoImplicit false

namespace FieldVault.Sha2

/-- The eight registers of a hash in progress. -/
structure Registers (ω : Type) where
  a : ω
  b : ω
  c : ω
  d : ω
  e : ω
  f : ω
  g : ω
  h : ω

/-- What one member of the family is made of. -/
class Family (ω : Type) extends Add ω, AndOp ω, XorOp ω, Complement ω where
  /-- Bytes in a word. -/
  wordBytes : Nat
  /-- The word of a number, reduced to the width. -/
  word : Nat → ω
  /-- The number a word stands for. -/
  value : ω → Nat
  /-- Rotations applied to the register `a`. -/
  bigSigma0 : ω → ω
  /-- Rotations applied to the register `e`. -/
  bigSigma1 : ω → ω
  /-- Rotations applied to the word fifteen places back. -/
  smallSigma0 : ω → ω
  /-- Rotations applied to the word two places back. -/
  smallSigma1 : ω → ω
  /-- One constant for each round. -/
  constants : List ω
  /-- The registers before the first block. -/
  initial : Registers ω

open Family

section

variable {ω : Type}

/-- One round with its constant and its word of the message schedule. -/
@[specialize]
def round [Family ω] (r : Registers ω) (constant word : ω) : Registers ω :=
  -- each bit of `e` chooses between those of `f` and `g`
  let choice := (r.e &&& r.f) ^^^ ((~~~ r.e) &&& r.g)
  let majority := (r.a &&& r.b) ^^^ (r.a &&& r.c) ^^^ (r.b &&& r.c)
  let t1 := r.h + bigSigma1 r.e + choice + constant + word
  let t2 := bigSigma0 r.a + majority
  ⟨t1 + t2, r.a, r.b, r.c, r.d + t1, r.e, r.f, r.g⟩

/-- The next word of the message schedule, from the words so far with the newest first. -/
@[specialize]
def nextWord [Family ω] (words : List ω) : ω :=
  let back (n : Nat) : ω := words.getD (n - 1) (word 0)
  smallSigma1 (back 2) + back 7 + smallSigma0 (back 15) + back 16

/-- The schedule extended by `count` words, newest first. -/
@[specialize]
def extend [Family ω] : Nat → List ω → List ω
  | 0, words => words
  | count + 1, words => extend count (nextWord words :: words)

/-- The words of a block, newest last. -/
@[specialize]
def blockWords [Family ω] (block : Bytes) : List ω :=
  (Bytes.takeBlocks (wordBytes ω) 16 block).map fun b => word (Bytes.toNat b)

/-- One word of the schedule for each round. -/
@[specialize]
def schedule [Family ω] (block : Bytes) : List ω :=
  -- the block itself gives the first sixteen words
  (extend ((constants : List ω).length - 16) (blockWords block).reverse).reverse

/-- The sum of two sets of registers, register by register. -/
@[specialize]
def Registers.add [Family ω] (x y : Registers ω) : Registers ω :=
  ⟨x.a + y.a, x.b + y.b, x.c + y.c, x.d + y.d, x.e + y.e, x.f + y.f, x.g + y.g, x.h + y.h⟩

/-- The rounds, one for each constant and word. -/
@[specialize]
def rounds [Family ω] : Registers ω → List ω → List ω → Registers ω
  | r, k :: constants, w :: words => rounds (round r k w) constants words
  | r, _, _ => r

/-- The registers after one more block. -/
@[specialize]
def compress [Family ω] (r : Registers ω) (block : Bytes) : Registers ω :=
  (rounds r constants (schedule block)).add r

/-- Bytes in a block. -/
def blockBytes (ω : Type) [Family ω] : Nat := 16 * wordBytes ω

/-- The bytes that follow a message of `length` bytes: a one bit, zeros up to two words before
the end of a block, and the length in bits. -/
def padding (ω : Type) [Family ω] (length : Nat) : Bytes :=
  let size := blockBytes ω
  let field := 2 * wordBytes ω
  0x80 :: Bytes.zeros ((2 * size - 1 - field - length % size) % size)
    ++ Bytes.ofNat field (8 * length)

/-- The bytes of the registers, in order. -/
def Registers.toBytes [Family ω] (r : Registers ω) : Bytes :=
  [r.a, r.b, r.c, r.d, r.e, r.f, r.g, r.h].flatMap fun w => Bytes.ofNat (wordBytes ω) (value w)

/-- Compression of `count` whole blocks, with the bytes left over. -/
@[specialize]
def absorb [Family ω] : Nat → Registers ω → Bytes → Registers ω × Bytes
  | 0, r, bytes => (r, bytes)
  | count + 1, r, bytes =>
    absorb count (compress r (bytes.take (blockBytes ω))) (bytes.drop (blockBytes ω))

/-- The digest of a whole message. -/
@[specialize]
def digest (ω : Type) [Family ω] (message : Bytes) : Bytes :=
  let padded := message ++ padding ω message.length
  (absorb (padded.length / blockBytes ω) (initial : Registers ω) padded).1.toBytes

/-- A hash in progress: the registers after the whole blocks seen, the bytes since, and the
number of bytes seen in all. -/
structure Hasher (ω : Type) where
  registers : Registers ω
  pending : Bytes
  length : Nat

/-- A hash of nothing yet. -/
def Hasher.start (ω : Type) [Family ω] : Hasher ω := ⟨initial, [], 0⟩

/-- Take in the next piece of the message. -/
@[specialize]
def Hasher.update [Family ω] (h : Hasher ω) (piece : Bytes) : Hasher ω :=
  let bytes := h.pending ++ piece
  let (registers, pending) := absorb (bytes.length / blockBytes ω) h.registers bytes
  ⟨registers, pending, h.length + piece.length⟩

/-- The digest of everything taken in. -/
@[specialize]
def Hasher.finish [Family ω] (h : Hasher ω) : Bytes :=
  let bytes := h.pending ++ padding ω h.length
  (absorb (bytes.length / blockBytes ω) h.registers bytes).1.toBytes

end

/-- The fractional parts of the cube roots of the first eighty primes, in 64 bits. -/
def cubeRoots : List Nat := [
  0x428a2f98d728ae22, 0x7137449123ef65cd, 0xb5c0fbcfec4d3b2f, 0xe9b5dba58189dbbc,
  0x3956c25bf348b538, 0x59f111f1b605d019, 0x923f82a4af194f9b, 0xab1c5ed5da6d8118,
  0xd807aa98a3030242, 0x12835b0145706fbe, 0x243185be4ee4b28c, 0x550c7dc3d5ffb4e2,
  0x72be5d74f27b896f, 0x80deb1fe3b1696b1, 0x9bdc06a725c71235, 0xc19bf174cf692694,
  0xe49b69c19ef14ad2, 0xefbe4786384f25e3, 0x0fc19dc68b8cd5b5, 0x240ca1cc77ac9c65,
  0x2de92c6f592b0275, 0x4a7484aa6ea6e483, 0x5cb0a9dcbd41fbd4, 0x76f988da831153b5,
  0x983e5152ee66dfab, 0xa831c66d2db43210, 0xb00327c898fb213f, 0xbf597fc7beef0ee4,
  0xc6e00bf33da88fc2, 0xd5a79147930aa725, 0x06ca6351e003826f, 0x142929670a0e6e70,
  0x27b70a8546d22ffc, 0x2e1b21385c26c926, 0x4d2c6dfc5ac42aed, 0x53380d139d95b3df,
  0x650a73548baf63de, 0x766a0abb3c77b2a8, 0x81c2c92e47edaee6, 0x92722c851482353b,
  0xa2bfe8a14cf10364, 0xa81a664bbc423001, 0xc24b8b70d0f89791, 0xc76c51a30654be30,
  0xd192e819d6ef5218, 0xd69906245565a910, 0xf40e35855771202a, 0x106aa07032bbd1b8,
  0x19a4c116b8d2d0c8, 0x1e376c085141ab53, 0x2748774cdf8eeb99, 0x34b0bcb5e19b48a8,
  0x391c0cb3c5c95a63, 0x4ed8aa4ae3418acb, 0x5b9cca4f7763e373, 0x682e6ff3d6b2b8a3,
  0x748f82ee5defb2fc, 0x78a5636f43172f60, 0x84c87814a1f0ab72, 0x8cc702081a6439ec,
  0x90befffa23631e28, 0xa4506cebde82bde9, 0xbef9a3f7b2c67915, 0xc67178f2e372532b,
  0xca273eceea26619c, 0xd186b8c721c0c207, 0xeada7dd6cde0eb1e, 0xf57d4f7fee6ed178,
  0x06f067aa72176fba, 0x0a637dc5a2c898a6, 0x113f9804bef90dae, 0x1b710b35131c471b,
  0x28db77f523047d84, 0x32caab7b40c72493, 0x3c9ebe0a15c9bebc, 0x431d67c49c100d4c,
  0x4cc5d4becb3e42b6, 0x597f299cfc657e2a, 0x5fcb6fab3ad6faec, 0x6c44198c4a475817]

/-- The fractional parts of the square roots of the first eight primes, in 64 bits. -/
def squareRoots : Registers Nat :=
  ⟨0x6a09e667f3bcc908, 0xbb67ae8584caa73b, 0x3c6ef372fe94f82b, 0xa54ff53a5f1d36f1,
   0x510e527fade682d1, 0x9b05688c2b3e6c1f, 0x1f83d9abfb41bd6b, 0x5be0cd19137e2179⟩

/-- The registers with a function applied to each. -/
def Registers.map {α β : Type} (f : α → β) (r : Registers α) : Registers β :=
  ⟨f r.a, f r.b, f r.c, f r.d, f r.e, f r.f, f r.g, f r.h⟩

/-- Rotation of a word of 32 bits to the right. -/
@[inline]
def rotate32 (x : UInt32) (n : UInt32) : UInt32 := (x >>> n) ||| (x <<< (32 - n))

/-- Rotation of a word of 64 bits to the right. -/
@[inline]
def rotate64 (x : UInt64) (n : UInt64) : UInt64 := (x >>> n) ||| (x <<< (64 - n))

/-- SHA-256: 64 rounds over 32-bit words. Its constants are the leading halves of the 64-bit
ones. -/
instance : Family UInt32 where
  wordBytes := 4
  word := UInt32.ofNat
  value := UInt32.toNat
  bigSigma0 x := rotate32 x 2 ^^^ rotate32 x 13 ^^^ rotate32 x 22
  bigSigma1 x := rotate32 x 6 ^^^ rotate32 x 11 ^^^ rotate32 x 25
  smallSigma0 x := rotate32 x 7 ^^^ rotate32 x 18 ^^^ (x >>> 3)
  smallSigma1 x := rotate32 x 17 ^^^ rotate32 x 19 ^^^ (x >>> 10)
  constants := (cubeRoots.take 64).map fun n => UInt32.ofNat (n >>> 32)
  initial := squareRoots.map fun n => UInt32.ofNat (n >>> 32)

/-- SHA-512: 80 rounds over 64-bit words. -/
instance : Family UInt64 where
  wordBytes := 8
  word := UInt64.ofNat
  value := UInt64.toNat
  bigSigma0 x := rotate64 x 28 ^^^ rotate64 x 34 ^^^ rotate64 x 39
  bigSigma1 x := rotate64 x 14 ^^^ rotate64 x 18 ^^^ rotate64 x 41
  smallSigma0 x := rotate64 x 1 ^^^ rotate64 x 8 ^^^ (x >>> 7)
  smallSigma1 x := rotate64 x 19 ^^^ rotate64 x 61 ^^^ (x >>> 6)
  constants := cubeRoots.map UInt64.ofNat
  initial := squareRoots.map UInt64.ofNat

/-- The SHA-256 digest of a message, 32 bytes. -/
def sha256 (message : Bytes) : Bytes := digest UInt32 message

/-- The SHA-512 digest of a message, 64 bytes. -/
def sha512 (message : Bytes) : Bytes := digest UInt64 message

end FieldVault.Sha2
