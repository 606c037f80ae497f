import FieldVault.Aes
import FieldVault.Proofs.BinaryField
import Mathlib.Tactic.Ring

/-!
# AES-256 never sends two blocks to one

Bytes stand for residues of polynomials modulo `x⁸ + x⁴ + x³ + x + 1`. In these the power 254 undoes
itself, so the substitution of bytes is injective (`subByte_injective`). Mixing a column four times
gives it back (`mix_mix_mix_mix`), and the other steps of a round only move bytes or add a key.
Hence every round is injective, and so is the encryption of a block under any round keys
(`RoundKeys.encrypt_injective`).
-/

set_option autoImplicit false

namespace FieldVault.Aes

/-! ### The field of bytes -/

/-- The polynomial by which products of bytes are reduced. -/
noncomputable def modulus : Polynomial (ZMod 2) :=
  BinaryField.modulusOf 8 (0x1b : UInt8).toBitVec.getLsbD

/-- The residue that a byte stands for, its lowest bit being the constant coefficient. -/
noncomputable def residue (b : UInt8) : AdjoinRoot modulus :=
  BinaryField.residue modulus 8 b.toBitVec.getLsbD

theorem residue_injective : Function.Injective residue := by
  intro a b h
  rw [← UInt8.toBitVec_inj]
  exact BitVec.eq_of_getLsbD_eq fun i hi => BinaryField.eq_of_residue_eq h hi

theorem residue_xor (a b : UInt8) : residue (a ^^^ b) = residue a + residue b := by
  have hbits : (a ^^^ b).toBitVec.getLsbD =
      fun i => a.toBitVec.getLsbD i ^^ b.toBitVec.getLsbD i := by
    funext i
    rw [UInt8.toBitVec_xor, BitVec.getLsbD_xor]
  rw [residue, hbits, BinaryField.residue_xor]
  rfl

@[simp]
theorem residue_zero : residue 0 = 0 := by
  simp [residue, BinaryField.residue]

/-- Doubling a byte is multiplication by the indeterminate. -/
theorem residue_double (b : UInt8) :
    residue (double b) = AdjoinRoot.root modulus * residue b := by
  have hshift : residue (b <<< 1) =
      BinaryField.residue modulus 8 fun i => 0 < i && b.toBitVec.getLsbD (i - 1) := by
    refine BinaryField.residue_congr modulus fun i hi => ?_
    cases i <;> simp [hi, BitVec.getLsbD_shiftLeft, -BitVec.getLsbD_eq_getElem]
  have htop : (b < 0x80) = (b.toBitVec.getLsbD 7 = false) := by
    have hbyte := b.toNat_lt
    simp only [UInt8.lt_iff_toNat_lt, BitVec.getLsbD, Nat.testBit_eq_decide_div_mod_eq]
    simp
    omega
  have hreduced : residue 0x1b = AdjoinRoot.root modulus ^ 8 :=
    (BinaryField.root_pow_width 8 _).symm
  rw [double, residue_xor, hshift, apply_ite residue, residue_zero, hreduced, residue,
    BinaryField.root_mul_residue modulus 7]
  simp only [htop]
  cases b.toBitVec.getLsbD 7 <;> simp

theorem residue_mulBits (count : Nat) (a b : UInt8) :
    residue (mulBits count a b) =
      BinaryField.residue modulus count a.toBitVec.getLsbD * residue b := by
  induction count generalizing a b with
  | zero => simp [mulBits, BinaryField.residue]
  | succ count ih =>
    have hshift : BinaryField.residue modulus count (a >>> 1).toBitVec.getLsbD =
        BinaryField.residue modulus count fun i => a.toBitVec.getLsbD (i + 1) := by
      refine BinaryField.residue_congr modulus fun i _ => ?_
      simp [Nat.add_comm]
    have hlow : (a &&& 1 = 1) = (a.toBitVec.getLsbD 0 = true) := by
      simp only [← UInt8.toNat_inj, UInt8.toNat_and, BitVec.getLsbD,
        Nat.testBit_eq_decide_div_mod_eq]
      simp
    rw [mulBits, residue_xor, ih, residue_double, BinaryField.residue_succ, hshift,
      apply_ite residue, residue_zero]
    simp only [hlow]
    cases a.toBitVec.getLsbD 0
    · simp; ring
    · simp; ring

theorem residue_mul (a b : UInt8) : residue (mul a b) = residue a * residue b :=
  residue_mulBits 8 a b

/-! ### The substitution -/

theorem residue_inverse (a : UInt8) : residue (inverse a) = residue a ^ 254 := by
  simp only [inverse, residue_mul]
  ring

/-- A byte squared `n` times. -/
theorem residue_squares (n : Nat) (a : UInt8) :
    residue ((fun b => mul b b)^[n] a) = residue a ^ 2 ^ n := by
  induction n generalizing a with
  | zero => simp
  | succ n ih => rw [Function.iterate_succ_apply, ih, residue_mul, ← pow_two, ← pow_mul, pow_succ']

/-- A byte is its own power 256. -/
theorem residue_pow (a : UInt8) : residue a ^ 2 ^ 8 = residue a := by
  have hroot : residue 2 = AdjoinRoot.root modulus ^ 1 :=
    BinaryField.residue_single modulus (by decide) (by decide)
  -- it is so for the indeterminate, by squaring it eight times
  have hsquares : (fun b => mul b b)^[8] 2 = 2 := by decide +kernel
  refine BinaryField.pow_eq_self_of_root ?_ _
  rw [← pow_one (AdjoinRoot.root modulus), ← hroot, ← residue_squares, hsquares]

/-- Inverting twice gives the byte back. -/
theorem inverse_inverse (a : UInt8) : inverse (inverse a) = a := by
  have hstep (n : Nat) : residue a ^ (255 * n + 1) = residue a := by
    induction n with
    | zero => simp
    | succ n ih =>
      calc residue a ^ (255 * (n + 1) + 1) = residue a ^ (255 * n) * residue a ^ 2 ^ 8 := by ring
        _ = residue a ^ (255 * n + 1) := by rw [residue_pow, pow_succ]
        _ = residue a := ih
  apply residue_injective
  -- 254 times 254 is one more than a multiple of 255
  rw [residue_inverse, residue_inverse, ← pow_mul]
  exact hstep 253

/-- The affine map of the substitution. -/
def affine (i : UInt8) : UInt8 :=
  i ^^^ rotate i 1 ^^^ rotate i 2 ^^^ rotate i 3 ^^^ rotate i 4 ^^^ 0x63

theorem affine_injective : Function.Injective affine := by
  let undo (s : UInt8) : UInt8 := rotate s 1 ^^^ rotate s 3 ^^^ rotate s 6 ^^^ 0x05
  have hundo : ∀ i : Fin 256, undo (affine (UInt8.ofNat i)) = UInt8.ofNat i := by decide +kernel
  have hleft : Function.LeftInverse undo affine := fun i => by
    simpa using hundo ⟨i.toNat, i.toNat_lt⟩
  exact hleft.injective

/-- No two bytes have the same substitute. -/
theorem subByte_injective : Function.Injective subByte := by
  intro a b h
  rw [subByte_eq, subByte_eq] at h
  have hinverse : inverse a = inverse b := affine_injective h
  rw [← inverse_inverse a, hinverse, inverse_inverse]

/-! ### The mixing of columns -/

theorem double_xor (a b : UInt8) : double (a ^^^ b) = double a ^^^ double b := by
  apply residue_injective
  rw [residue_xor, residue_double, residue_double, residue_double, residue_xor, mul_add]

theorem xor_left_comm (a b c : UInt8) : a ^^^ (b ^^^ c) = b ^^^ (a ^^^ c) := by
  rw [← UInt8.xor_assoc, UInt8.xor_comm a b, UInt8.xor_assoc]

/-- A byte added twice cancels, also in front of others. -/
theorem xor_xor_cancel_left (a b : UInt8) : a ^^^ (a ^^^ b) = b := by
  rw [← UInt8.xor_assoc, UInt8.xor_self, UInt8.zero_xor]

namespace Column

/-- Mixing twice adds to every byte four times its sum with the opposite one. -/
theorem mix_mix (c : Column) :
    c.mix.mix = ⟨double (double (c.r0 ^^^ c.r2)) ^^^ c.r0, double (double (c.r1 ^^^ c.r3)) ^^^ c.r1,
      double (double (c.r0 ^^^ c.r2)) ^^^ c.r2, double (double (c.r1 ^^^ c.r3)) ^^^ c.r3⟩ := by
  simp only [mix, double_xor, mk.injEq]
  -- sums of bytes and their doubles, in which what occurs twice cancels
  refine ⟨?_, ?_, ?_, ?_⟩ <;>
    simp only [UInt8.xor_assoc, UInt8.xor_comm, xor_left_comm, xor_xor_cancel_left, UInt8.xor_self,
      UInt8.zero_xor]

/-- Mixing four times gives the column back. -/
theorem mix_mix_mix_mix (c : Column) : c.mix.mix.mix.mix = c := by
  -- what is added in the two halves is the same, as the sums of opposite bytes stay as they are
  have hsum (s a b : UInt8) : (s ^^^ a) ^^^ (s ^^^ b) = a ^^^ b := by
    rw [UInt8.xor_assoc, xor_left_comm a, xor_xor_cancel_left]
  rw [mix_mix, mix_mix]
  simp only [hsum, xor_xor_cancel_left]

theorem mix_injective : Function.Injective mix := by
  intro c d h
  rw [← mix_mix_mix_mix c, h, mix_mix_mix_mix]

theorem map_injective {f : UInt8 → UInt8} (hf : Function.Injective f) :
    Function.Injective (map f) := by
  intro c d h
  simp only [map, mk.injEq] at h
  obtain ⟨h0, h1, h2, h3⟩ := h
  cases c
  cases d
  simp only [mk.injEq]
  exact ⟨hf h0, hf h1, hf h2, hf h3⟩

theorem xor_injective (key : Column) : Function.Injective (xor · key) := by
  intro c d h
  simp only [xor, mk.injEq, UInt8.xor_left_inj] at h
  cases c
  cases d
  simpa only [mk.injEq] using h

end Column

/-! ### Rounds -/

namespace Block

theorem mapColumns_injective {f : Column → Column} (hf : Function.Injective f) :
    Function.Injective (mapColumns f) := by
  intro b d h
  simp only [mapColumns, mk.injEq] at h
  obtain ⟨h0, h1, h2, h3⟩ := h
  cases b
  cases d
  simp only [mk.injEq]
  exact ⟨hf h0, hf h1, hf h2, hf h3⟩

theorem subBytes_injective : Function.Injective subBytes :=
  mapColumns_injective (Column.map_injective subByte_injective)

theorem mixColumns_injective : Function.Injective mixColumns :=
  mapColumns_injective Column.mix_injective

theorem shiftRows_injective : Function.Injective shiftRows := by
  rintro ⟨⟨⟩, ⟨⟩, ⟨⟩, ⟨⟩⟩ ⟨⟨⟩, ⟨⟩, ⟨⟩, ⟨⟩⟩ h
  simp only [shiftRows, mk.injEq, Column.mk.injEq] at h ⊢
  tauto

theorem xor_injective (key : Block) : Function.Injective (xor · key) := by
  intro b d h
  simp only [xor, mk.injEq] at h
  obtain ⟨h0, h1, h2, h3⟩ := h
  cases b
  cases d
  simp only [mk.injEq]
  exact ⟨Column.xor_injective _ h0, Column.xor_injective _ h1, Column.xor_injective _ h2,
    Column.xor_injective _ h3⟩

theorem toBytes_injective : Function.Injective toBytes := by
  rintro ⟨⟨⟩, ⟨⟩, ⟨⟩, ⟨⟩⟩ ⟨⟨⟩, ⟨⟩, ⟨⟩, ⟨⟩⟩ h
  simpa [toBytes, Column.toBytes, and_assoc] using h

/-- Sixteen bytes are read back from their block. -/
theorem toBytes_ofBytes {bytes : Bytes} (h : bytes.length = 16) :
    (ofBytes bytes).toBytes = bytes := by
  match bytes, h with
  | [_, _, _, _, _, _, _, _, _, _, _, _, _, _, _, _], _ => rfl

end Block

theorem round_injective (key : Block) : Function.Injective (round · key) :=
  (Block.xor_injective key).comp (Block.mixColumns_injective.comp
    (Block.shiftRows_injective.comp Block.subBytes_injective))

/-- Any number of full rounds is injective. -/
theorem foldl_round_injective (keys : List Block) :
    Function.Injective fun block => keys.foldl round block := by
  induction keys with
  | nil => exact Function.injective_id
  | cons key keys ih => exact ih.comp (round_injective key)

/-- Under fixed round keys no two blocks are encrypted to the same block. -/
theorem RoundKeys.encrypt_injective (keys : RoundKeys) : Function.Injective keys.encrypt :=
  (Block.xor_injective keys.last).comp (Block.shiftRows_injective.comp
    (Block.subBytes_injective.comp ((foldl_round_injective keys.full).comp
      (Block.xor_injective keys.whitening))))

end FieldVault.Aes
