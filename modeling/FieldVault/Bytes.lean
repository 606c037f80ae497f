/-!
# Byte strings

Everything the vault hashes, encrypts, encodes or sends is a list of bytes. This module fixes
the conversions the other modules share: text to its UTF-8 bytes and back (`toText_ofText`),
numbers to big-endian bytes and back, bytewise exclusive or, and the split of a byte string
into blocks.
-/

set_option autoImplicit false

namespace FieldVault

/-- A byte string. -/
abbrev Bytes := List UInt8

namespace Bytes

/-- The UTF-8 bytes of a text. -/
def ofText (text : String) : Bytes := text.toUTF8.data.toList

/-- The text whose UTF-8 form is the given bytes, if there is one. -/
def toText? (bytes : Bytes) : Option String := String.fromUTF8? ⟨bytes.toArray⟩

/-- Reading the UTF-8 form of a text gives the text back. -/
@[simp]
theorem toText_ofText (text : String) : toText? (ofText text) = some text := by
  have h : (⟨(text.toUTF8.data.toList).toArray⟩ : ByteArray) = text.toUTF8 := by
    simp
  rw [toText?, ofText, h]
  simp [String.fromUTF8?, text.isValidUTF8]
  rfl

/-- The bytes of a text are those of its characters. -/
theorem ofText_eq_flatMap (text : String) :
    ofText text = text.toList.flatMap String.utf8EncodeChar := by
  rw [ofText, String.toUTF8, ← String.utf8Encode_toList, List.utf8Encode, List.data_toByteArray]

/-- Bytewise exclusive or, as long as the shorter operand. -/
def xor (a b : Bytes) : Bytes := List.zipWith (· ^^^ ·) a b

/-- The low `width` bytes of a number, most significant first. -/
def ofNat : Nat → Nat → Bytes
  | 0, _ => []
  | width + 1, n => UInt8.ofNat (n >>> (8 * width) % 256) :: ofNat width n

/-- The number whose big-endian form is the given bytes. -/
def toNat (bytes : Bytes) : Nat := bytes.foldl (fun n b => 256 * n + b.toNat) 0

/-- `count` zero bytes. -/
def zeros (count : Nat) : Bytes := List.replicate count 0

/-- The bytes followed by as many zero bytes as reach the length `width`. -/
def padTo (width : Nat) (bytes : Bytes) : Bytes := bytes ++ zeros (width - bytes.length)

/-- The first `count` blocks of `size` bytes. -/
def takeBlocks (size : Nat) : Nat → Bytes → List Bytes
  | 0, _ => []
  | count + 1, bytes => bytes.take size :: takeBlocks size count (bytes.drop size)

/-- The byte string cut into blocks of `size` bytes; the last one may be shorter. -/
def blocks (size : Nat) (bytes : Bytes) : List Bytes :=
  takeBlocks size ((bytes.length + (size - 1)) / size) bytes

theorem length_ofNat (width n : Nat) : (ofNat width n).length = width := by
  induction width with
  | zero => rfl
  | succ width ih => simp [ofNat, ih]

theorem length_xor (a b : Bytes) : (xor a b).length = min a.length b.length := by
  simp [xor]

end Bytes

end FieldVault
