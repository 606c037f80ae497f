import FieldVault.Bytes
import Mathlib.Data.List.Induction
import Mathlib.Tactic.Ring

/-!
# Byte strings as texts, as numbers and as blocks

Texts are told apart by their bytes (`ofText_injective`), byte strings of one length by their
numbers (`toNat_injective`), and numbers in range by their bytes (`ofNat_injOn`). A byte string
whose first part fills whole blocks is cut into the blocks of its parts (`blocks_append`), and its
next block is the one it goes on with (`blocks_cons`).
-/

set_option autoImplicit false

namespace FieldVault.Bytes

/-! ### Texts -/

theorem ofText_append (a b : String) : ofText (a ++ b) = ofText a ++ ofText b := by
  change (a ++ b).toByteArray.data.toList = _
  rw [String.toByteArray_append, ByteArray.data_append, Array.toList_append]
  rfl

/-- Texts are told apart by their bytes. -/
theorem ofText_injective {a b : String} (h : ofText a = ofText b) : a = b := by
  have htext := congrArg toText? h
  rw [toText_ofText, toText_ofText] at htext
  exact Option.some.inj htext

/-- A text that was read has the bytes it was read from. -/
theorem ofText_of_toText? {bytes : Bytes} {text : String} (h : toText? bytes = some text) :
    ofText text = bytes := by
  unfold toText? String.fromUTF8? at h
  split at h
  · cases h
    rfl
  · cases h

/-- A byte below 128 stands in the UTF-8 form of no character but its own. -/
theorem toNat_eq_of_mem_utf8EncodeChar {c : Char} {b : UInt8} (hb : b < 0x80)
    (h : b ∈ String.utf8EncodeChar c) : c.toNat = b.toNat := by
  have hlt : b.toNat < 128 := UInt8.lt_iff_toNat_lt.1 hb
  have hbyte : ∀ n, b = UInt8.ofNat n ↔ n % 256 = b.toNat := by
    intro n
    rw [← UInt8.toNat_inj, UInt8.toNat_ofNat']
    exact eq_comm
  change c.val.toNat = b.toNat
  revert h
  -- one case for each length of the form
  fun_cases String.utf8EncodeChar c <;>
    simp only [List.mem_cons, List.not_mem_nil, hbyte, or_false] <;> omega

/-! ### Numbers -/

theorem toNat_concat (bytes : Bytes) (b : UInt8) :
    toNat (bytes ++ [b]) = 256 * toNat bytes + b.toNat := by
  rw [toNat, List.foldl_append]
  rfl

theorem toNat_lt (bytes : Bytes) : toNat bytes < 256 ^ bytes.length := by
  induction bytes using List.reverseRecOn with
  | nil => exact Nat.one_pos
  | append_singleton bytes b ih =>
    have hbyte := b.toNat_lt
    rw [toNat_concat, List.length_append, List.length_singleton, Nat.pow_succ]
    omega

/-- Byte strings of one length with the same number are the same. -/
theorem toNat_injective {a b : Bytes} (hlength : a.length = b.length) (h : toNat a = toNat b) :
    a = b := by
  induction a using List.reverseRecOn generalizing b with
  | nil => exact (List.length_eq_zero_iff.1 hlength.symm).symm
  | append_singleton a x ih =>
    cases b using List.reverseRecOn with
    | nil => simp at hlength
    | append_singleton b y =>
      have hx := x.toNat_lt
      have hy := y.toNat_lt
      rw [toNat_concat, toNat_concat] at h
      have hrest : a = b := ih (by simpa using hlength) (by omega)
      have hlast : x = y := UInt8.toNat_inj.1 (by omega)
      rw [hrest, hlast]

theorem toNat_cons (b : UInt8) (bytes : Bytes) :
    toNat (b :: bytes) = b.toNat * 256 ^ bytes.length + toNat bytes := by
  induction bytes using List.reverseRecOn with
  | nil => simp [toNat]
  | append_singleton bytes c ih =>
    rw [← List.cons_append, toNat_concat, toNat_concat, ih, List.length_append,
      List.length_singleton, Nat.pow_succ]
    ring

/-- The bytes of a number are those of what is left of it in range. -/
theorem toNat_ofNat (width n : Nat) : toNat (ofNat width n) = n % 256 ^ width := by
  induction width with
  | zero =>
    rw [Nat.pow_zero, Nat.mod_one]
    rfl
  | succ width ih =>
    have hshift : n >>> (8 * width) = n / 256 ^ width := by
      rw [Nat.shiftRight_eq_div_pow, Nat.pow_mul]
    have hbyte : (UInt8.ofNat (n / 256 ^ width % 256)).toNat = n / 256 ^ width % 256 := by
      simp
    rw [ofNat, toNat_cons, ih, length_ofNat, hshift, hbyte, Nat.mod_pow_succ]
    ring

/-- Numbers in range are told apart by their bytes. -/
theorem ofNat_injOn {width m n : Nat} (hm : m < 256 ^ width) (hn : n < 256 ^ width)
    (h : ofNat width m = ofNat width n) : m = n := by
  rw [← Nat.mod_eq_of_lt hm, ← Nat.mod_eq_of_lt hn, ← toNat_ofNat, ← toNat_ofNat, h]

/-! ### Blocks -/

/-- A first part of `count` whole blocks is cut off as these blocks. -/
theorem takeBlocks_append {size : Nat} (count rest : Nat) {first : Bytes} (second : Bytes)
    (h : first.length = count * size) :
    takeBlocks size (count + rest) (first ++ second) =
      takeBlocks size count first ++ takeBlocks size rest second := by
  induction count generalizing first with
  | zero =>
    have hnil : first = [] := List.length_eq_zero_iff.1 (by omega)
    rw [hnil, Nat.zero_add]
    rfl
  | succ count ih =>
    have hsplit : (count + 1) * size = count * size + size := Nat.succ_mul ..
    have hsize : size ≤ first.length := by omega
    have hrest : (first.drop size).length = count * size := by
      rw [List.length_drop]
      omega
    rw [Nat.succ_add, takeBlocks, takeBlocks, List.take_append_of_le_length hsize,
      List.drop_append_of_le_length hsize, ih hrest, List.cons_append]

/-- The blocks of two byte strings written one after the other, if the first fills its blocks. -/
theorem blocks_append {size count : Nat} (hsize : 0 < size) {first : Bytes} (second : Bytes)
    (h : first.length = count * size) :
    blocks size (first ++ second) = blocks size first ++ blocks size second := by
  have hfirst : (first.length + (size - 1)) / size = count := by
    rw [h, Nat.mul_comm, Nat.mul_add_div hsize, Nat.div_eq_of_lt (by omega), Nat.add_zero]
  have hboth : ((first ++ second).length + (size - 1)) / size =
      count + (second.length + (size - 1)) / size := by
    rw [List.length_append, h, Nat.add_assoc, Nat.mul_comm, Nat.mul_add_div hsize]
  rw [blocks, hboth, takeBlocks_append _ _ _ h, blocks, blocks, hfirst]

/-- A byte string that fits in a block is one. -/
theorem blocks_of_length_le {size : Nat} {block : Bytes} (hne : block ≠ [])
    (hle : block.length ≤ size) : blocks size block = [block] := by
  have hpos : 0 < block.length := List.length_pos_iff.2 hne
  have hone : (block.length + (size - 1)) / size = 1 := by
    rw [Nat.div_eq_iff (by omega)]
    omega
  rw [blocks, hone, takeBlocks, takeBlocks, List.take_of_length_le hle]

/-- A byte string that starts with a block, the last one or a full one, is cut after it. -/
theorem blocks_cons {size : Nat} {block rest : Bytes} (hne : block ≠ [])
    (hle : block.length ≤ size) (hfull : rest ≠ [] → block.length = size) :
    blocks size (block ++ rest) = block :: blocks size rest := by
  have hpos : 0 < block.length := List.length_pos_iff.2 hne
  by_cases hrest : rest = []
  · have hnone : blocks size [] = [] := by
      rw [blocks, List.length_nil, Nat.zero_add, Nat.div_eq_of_lt (by omega), takeBlocks]
    rw [hrest, List.append_nil, blocks_of_length_le hne hle, hnone]
  · have hsize : block.length = 1 * size := by rw [Nat.one_mul, hfull hrest]
    rw [blocks_append (by omega) rest hsize, blocks_of_length_le hne hle, List.singleton_append]

/-- Byte strings of one length that differ, but only within one block, are cut around that block. -/
theorem exists_cut {size k : Nat} {a b : Bytes} (hlength : a.length = b.length) (hne : a ≠ b)
    (hblock : ∀ i, a[i]? ≠ b[i]? → k * size ≤ i ∧ i < (k + 1) * size) :
    ∃ before x y after, a = before ++ (x ++ after) ∧ b = before ++ (y ++ after) ∧
      before.length = k * size ∧ x.length = y.length ∧ x.length ≤ size ∧
      (after ≠ [] → x.length = size) := by
  have hstop : (k + 1) * size = k * size + size := Nat.succ_mul ..
  have hcut (c : Bytes) : c = c.take (k * size) ++
      ((c.drop (k * size)).take size ++ c.drop (k * size + size)) := by
    rw [← List.drop_drop, List.take_append_drop, List.take_append_drop]
  -- outside the block both go on with the same bytes
  have hsame (i : Nat) (hi : i < k * size ∨ k * size + size ≤ i) : a[i]? = b[i]? := by
    by_contra hdiffer
    have hrange := hblock i hdiffer
    omega
  have hbefore : a.take (k * size) = b.take (k * size) := by
    apply List.ext_getElem?
    intro i
    rw [List.getElem?_take, List.getElem?_take]
    split
    · exact hsame i (.inl ‹_›)
    · rfl
  have hafter : a.drop (k * size + size) = b.drop (k * size + size) := by
    apply List.ext_getElem?
    intro i
    rw [List.getElem?_drop, List.getElem?_drop]
    exact hsame _ (.inr (Nat.le_add_right _ _))
  -- the block starts within the byte strings, since they differ in it
  have hinside : k * size ≤ a.length := by
    by_contra houtside
    rw [List.take_of_length_le (by omega), List.take_of_length_le (by omega)] at hbefore
    exact hne hbefore
  refine ⟨b.take (k * size), (a.drop (k * size)).take size, (b.drop (k * size)).take size,
    b.drop (k * size + size), ?_, hcut b, ?_, ?_, List.length_take_le _ _, fun hfull => ?_⟩
  · rw [← hbefore, ← hafter]
    exact hcut a
  · rw [← hbefore, List.length_take, Nat.min_eq_left hinside]
  · rw [List.length_take, List.length_take, List.length_drop, List.length_drop, hlength]
  · rw [← List.length_pos_iff, List.length_drop] at hfull
    rw [List.length_take, List.length_drop]
    omega

/-- The bytes of the middle one of three parts. -/
theorem getElem?_middle (before after : Bytes) {middle : Bytes} {i : Nat}
    (hi : i < middle.length) :
    (before ++ (middle ++ after))[before.length + i]? = middle[i]? := by
  rw [List.getElem?_append_right (Nat.le_add_right _ _), Nat.add_sub_cancel_left,
    List.getElem?_append_left hi]

/-- A byte string that differs from three parts in the middle one only has the two others. -/
theorem exists_middle {a before middle after : Bytes}
    (hlength : a.length = (before ++ (middle ++ after)).length)
    (hdiffer : ∀ i, a[i]? ≠ (before ++ (middle ++ after))[i]? →
      before.length ≤ i ∧ i < before.length + middle.length) :
    ∃ changed : Bytes, changed.length = middle.length ∧ a = before ++ (changed ++ after) := by
  rw [List.length_append, List.length_append] at hlength
  have hfirst : a.take before.length = before := by
    apply List.ext_getElem?
    intro i
    rw [List.getElem?_take]
    split
    · rename_i hi
      have hsame : (before ++ (middle ++ after))[i]? = before[i]? := List.getElem?_append_left hi
      rw [← hsame]
      by_contra hne
      exact absurd (hdiffer i hne).1 (Nat.not_le_of_lt hi)
    · rw [List.getElem?_eq_none (by omega)]
  have hlast : (a.drop before.length).drop middle.length = after := by
    apply List.ext_getElem?
    intro i
    rw [List.getElem?_drop, List.getElem?_drop]
    have hsame : a[before.length + (middle.length + i)]? =
        (before ++ (middle ++ after))[before.length + (middle.length + i)]? := by
      by_contra hne
      have hrange := (hdiffer _ hne).2
      omega
    rw [hsame, List.getElem?_append_right (by omega), List.getElem?_append_right (by omega)]
    congr 1
    omega
  refine ⟨(a.drop before.length).take middle.length, ?_, ?_⟩
  · rw [List.length_take, List.length_drop]
    omega
  · nth_rewrite 1 [← List.take_append_drop before.length a,
      ← List.take_append_drop middle.length (a.drop before.length)]
    rw [hfirst, hlast]

end FieldVault.Bytes
