import FieldVault.Bytes

/-!
# The AES-256 block cipher

A block is a square of sixteen bytes held as four columns. Every step of a round — substitution
of the bytes, rotation of the rows, mixing of the columns, addition of a round key — can be
undone, so encryption under a fixed key never sends two blocks to one. The substitution is
defined from the field of 256 elements and tabulated once.
-/

set_option autoImplicit false

namespace FieldVault.Aes

/-- A column of the block. -/
structure Column where
  r0 : UInt8
  r1 : UInt8
  r2 : UInt8
  r3 : UInt8
deriving DecidableEq

/-- A block: four columns. -/
structure Block where
  c0 : Column
  c1 : Column
  c2 : Column
  c3 : Column
deriving DecidableEq

/-- Twice a byte, in the field of 256 elements. -/
def double (b : UInt8) : UInt8 := (b <<< 1) ^^^ (if b < 0x80 then 0 else 0x1b)

/-- Product of field elements, from the low `count` bits of the first. -/
def mulBits : Nat → UInt8 → UInt8 → UInt8
  | 0, _, _ => 0
  | count + 1, a, b =>
    (if a &&& 1 = 1 then b else 0) ^^^ mulBits count (a >>> 1) (double b)

/-- Product of field elements. -/
def mul (a b : UInt8) : UInt8 := mulBits 8 a b

/-- The inverse of a field element, its power 254; zero for zero. -/
def inverse (a : UInt8) : UInt8 :=
  let a2 := mul a a
  let a3 := mul a2 a
  let a6 := mul a3 a3
  let a12 := mul a6 a6
  let a15 := mul a12 a3
  let a30 := mul a15 a15
  let a60 := mul a30 a30
  let a120 := mul a60 a60
  let a126 := mul a120 a6
  let a127 := mul a126 a
  mul a127 a127

/-- Rotation of a byte to the left. -/
def rotate (b : UInt8) (n : UInt8) : UInt8 := (b <<< n) ||| (b >>> (8 - n))

/-- The substitution: the inverse under an affine map of its bits. -/
def substitution (b : UInt8) : UInt8 :=
  let i := inverse b
  i ^^^ rotate i 1 ^^^ rotate i 2 ^^^ rotate i 3 ^^^ rotate i 4 ^^^ 0x63

/-- The substitution of every byte. -/
def substitutionTable : Vector UInt8 256 := Vector.ofFn fun i => substitution (UInt8.ofNat i.val)

/-- The substitute of a byte, read from the table. -/
def subByte (b : UInt8) : UInt8 :=
  have := b.toNat_lt
  substitutionTable[b.toNat]

/-- Reading the table gives the substitution. -/
theorem subByte_eq (b : UInt8) : subByte b = substitution b := by
  simp [subByte, substitutionTable]

namespace Column

/-- A function applied to every byte. -/
def map (f : UInt8 → UInt8) (c : Column) : Column := ⟨f c.r0, f c.r1, f c.r2, f c.r3⟩

/-- Bytewise exclusive or. -/
def xor (a b : Column) : Column := ⟨a.r0 ^^^ b.r0, a.r1 ^^^ b.r1, a.r2 ^^^ b.r2, a.r3 ^^^ b.r3⟩

/-- The column turned by one place. -/
def turn (c : Column) : Column := ⟨c.r1, c.r2, c.r3, c.r0⟩

/-- The column multiplied by the mixing polynomial `3x³ + x² + x + 2`. -/
def mix (c : Column) : Column :=
  let triple (b : UInt8) : UInt8 := double b ^^^ b
  ⟨double c.r0 ^^^ triple c.r1 ^^^ c.r2 ^^^ c.r3,
   c.r0 ^^^ double c.r1 ^^^ triple c.r2 ^^^ c.r3,
   c.r0 ^^^ c.r1 ^^^ double c.r2 ^^^ triple c.r3,
   triple c.r0 ^^^ c.r1 ^^^ c.r2 ^^^ double c.r3⟩

/-- The column of four bytes; missing ones are zero. -/
def ofBytes (b : Bytes) : Column := ⟨b.getD 0 0, b.getD 1 0, b.getD 2 0, b.getD 3 0⟩

/-- The four bytes of a column. -/
def toBytes (c : Column) : Bytes := [c.r0, c.r1, c.r2, c.r3]

end Column

namespace Block

/-- A function applied to every column. -/
def mapColumns (f : Column → Column) (b : Block) : Block := ⟨f b.c0, f b.c1, f b.c2, f b.c3⟩

/-- The substitute of every byte. -/
def subBytes (b : Block) : Block := b.mapColumns (Column.map subByte)

/-- Row `i` turned by `i` places. -/
def shiftRows (b : Block) : Block :=
  ⟨⟨b.c0.r0, b.c1.r1, b.c2.r2, b.c3.r3⟩, ⟨b.c1.r0, b.c2.r1, b.c3.r2, b.c0.r3⟩,
   ⟨b.c2.r0, b.c3.r1, b.c0.r2, b.c1.r3⟩, ⟨b.c3.r0, b.c0.r1, b.c1.r2, b.c2.r3⟩⟩

/-- Every column mixed. -/
def mixColumns (b : Block) : Block := b.mapColumns Column.mix

/-- Bytewise exclusive or. -/
def xor (a b : Block) : Block := ⟨a.c0.xor b.c0, a.c1.xor b.c1, a.c2.xor b.c2, a.c3.xor b.c3⟩

/-- The block of sixteen bytes; missing ones are zero. -/
def ofBytes (b : Bytes) : Block :=
  ⟨.ofBytes b, .ofBytes (b.drop 4), .ofBytes (b.drop 8), .ofBytes (b.drop 12)⟩

/-- The sixteen bytes of a block. -/
def toBytes (b : Block) : Bytes :=
  b.c0.toBytes ++ b.c1.toBytes ++ b.c2.toBytes ++ b.c3.toBytes

end Block

/-- A key of 32 bytes. -/
structure Key where
  bytes : Bytes
  length_bytes : bytes.length = 32

namespace Key

/-- The key of 32 bytes; any other length is refused. -/
def ofBytes? (bytes : Bytes) : Option Key :=
  if h : bytes.length = 32 then some ⟨bytes, h⟩ else none

end Key

/-- Eight words of the key schedule: two round keys. -/
abbrev KeyPair := Block × Block

/-- The eight words after the given ones, under a round constant. -/
def nextKeys (constant : UInt8) (keys : KeyPair) : KeyPair :=
  let (p, q) := keys
  -- what is added to the first and the fifth word goes through the substitution
  let w0 := p.c0.xor (((q.c3.turn).map subByte).xor ⟨constant, 0, 0, 0⟩)
  let w1 := p.c1.xor w0
  let w2 := p.c2.xor w1
  let w3 := p.c3.xor w2
  let w4 := q.c0.xor (w3.map subByte)
  let w5 := q.c1.xor w4
  let w6 := q.c2.xor w5
  let w7 := q.c3.xor w6
  (⟨w0, w1, w2, w3⟩, ⟨w4, w5, w6, w7⟩)

/-- The round keys that follow a pair, two for each of `count` round constants. -/
def followingKeys : Nat → UInt8 → KeyPair → List Block
  | 0, _, _ => []
  | count + 1, constant, keys =>
    let next := nextKeys constant keys
    next.1 :: next.2 :: followingKeys count (double constant) next

/-- The fifteen round keys: one before the first round, thirteen for the full rounds and one
for the last. -/
structure RoundKeys where
  whitening : Block
  full : List Block
  last : Block

/-- The round keys of a key. -/
def Key.roundKeys (key : Key) : RoundKeys :=
  let first : KeyPair := (.ofBytes key.bytes, .ofBytes (key.bytes.drop 16))
  -- the pair holds two round keys, the first of them the whitening
  let following := first.2 :: followingKeys 7 1 first
  ⟨first.1, following.take 13, following.getD 13 first.1⟩

/-- One full round. -/
def round (block key : Block) : Block := (block.subBytes.shiftRows.mixColumns).xor key

/-- The encryption of a block: the full rounds, then one without the mixing of columns. -/
def RoundKeys.encrypt (keys : RoundKeys) (block : Block) : Block :=
  ((keys.full.foldl round (block.xor keys.whitening)).subBytes.shiftRows).xor keys.last

end FieldVault.Aes
