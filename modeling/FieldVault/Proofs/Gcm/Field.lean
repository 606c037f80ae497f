import FieldVault.Gcm
import FieldVault.Proofs.BinaryField
import Mathlib.Tactic.Ring

/-!
# The field of the authentication hash

Elements stand for residues of polynomials modulo `x¹²⁸ + x⁷ + x² + x + 1`, their leading bit being
the constant coefficient. The product of two elements stands for the product of the residues
(`residue_mul`). The modulus is irreducible (`irreducible_modulus`), so there are no zero divisors,
and multiplying by an element other than zero loses nothing (`mul_left_injective`).
-/

set_option autoImplicit false

namespace FieldVault.Gcm

open BinaryField (residue_congr)
open Finset (range)

/-- What is added when a coefficient goes over the end. -/
def reduction : Element := 0xe1#8 ++ 0#120

/-- The polynomial by which products of elements are reduced. -/
noncomputable def modulus : Polynomial (ZMod 2) :=
  BinaryField.modulusOf 128 reduction.getMsbD

/-- The residue that an element stands for. -/
noncomputable def residue (e : Element) : AdjoinRoot modulus :=
  BinaryField.residue modulus 128 e.getMsbD

theorem residue_injective : Function.Injective residue := by
  intro a b h
  exact BitVec.eq_of_getMsbD_eq fun i hi => BinaryField.eq_of_residue_eq h hi

theorem residue_xor (a b : Element) : residue (a ^^^ b) = residue a + residue b := by
  have hbits : (a ^^^ b).getMsbD = fun i => a.getMsbD i ^^ b.getMsbD i := by
    funext i
    rw [BitVec.getMsbD_xor]
  rw [residue, hbits, BinaryField.residue_xor]
  rfl

@[simp]
theorem residue_zero : residue 0 = 0 := by
  simp [residue, BinaryField.residue]

/-- One step of the multiples is multiplication by the indeterminate. -/
theorem residue_timesX (v : Element) :
    residue (timesX v) = AdjoinRoot.root modulus * residue v := by
  have hshift : residue (v >>> 1) =
      BinaryField.residue modulus 128 fun i => 0 < i && v.getMsbD (i - 1) := by
    refine residue_congr modulus fun i hi => ?_
    cases i <;> simp [hi, BitVec.getMsbD_ushiftRight]
  have hlast : v.getLsbD 0 = v.getMsbD 127 := by
    simp [BitVec.getMsbD]
  have hreduced : residue (0xe1#8 ++ 0#120) = AdjoinRoot.root modulus ^ 128 :=
    (BinaryField.root_pow_width 128 _).symm
  rw [timesX, residue_xor, hshift, apply_ite residue, residue_zero, hreduced, hlast, residue,
    BinaryField.root_mul_residue modulus 127]

/-! ### Products -/

theorem residue_timesPower (power : Nat) (v : Element) :
    residue (timesPower power v) = AdjoinRoot.root modulus ^ power * residue v := by
  induction power generalizing v with
  | zero => rw [timesPower, pow_zero, one_mul]
  | succ power ih => rw [timesPower, ih, residue_timesX, pow_succ, mul_assoc]

/-- The multiples of an element that go with the bits of a word, added up. -/
theorem residue_addWhere (word : BitVec wordBits) (count : Nat) (v sum : Element) :
    residue (addWhere word count (multiples count v) sum) =
      residue sum + BinaryField.residue modulus count (fun i => word.getLsbD (count - 1 - i)) *
        residue v := by
  induction count generalizing v sum with
  | zero => simp [addWhere, BinaryField.residue]
  | succ count ih =>
    have hbits : BinaryField.residue modulus count (fun i => word.getLsbD (count - (i + 1))) =
        BinaryField.residue modulus count fun i => word.getLsbD (count - 1 - i) :=
      residue_congr modulus fun i _ => by rw [Nat.sub_sub, Nat.add_comm i]
    rw [multiples, addWhere, ih, residue_timesX, BinaryField.residue_succ, Nat.add_sub_cancel,
      hbits, Nat.sub_zero, apply_ite residue, residue_xor]
    split
    · ring
    · ring

/-- The word that starts at a place from the end holds the coefficients from `place` on. -/
theorem residue_word (u : Element) (start place : Nat) (h : start + place = 96) :
    BinaryField.residue modulus wordBits
        (fun i => (u.extractLsb' start wordBits).getLsbD (wordBits - 1 - i)) =
      BinaryField.residue modulus wordBits fun i => u.getMsbD (place + i) := by
  refine residue_congr modulus fun i hi => ?_
  simp only [wordBits, BitVec.getLsbD_extractLsb', BitVec.getMsbD] at hi ⊢
  have hplace : 128 - 1 - (place + i) = start + (32 - 1 - i) := by omega
  have hword : 32 - 1 - i < 32 := by omega
  have hinside : place + i < 128 := by omega
  simp only [hplace, hword, hinside, decide_true, Bool.true_and]

/-- The coefficients of an element, word by word. -/
theorem residue_eq_words (u : Element) :
    residue u =
      BinaryField.residue modulus wordBits (fun i => u.getMsbD (0 + i)) +
      AdjoinRoot.root modulus ^ wordBits *
        (BinaryField.residue modulus wordBits (fun i => u.getMsbD (32 + i)) +
      AdjoinRoot.root modulus ^ wordBits *
        (BinaryField.residue modulus wordBits (fun i => u.getMsbD (64 + i)) +
      AdjoinRoot.root modulus ^ wordBits *
        BinaryField.residue modulus wordBits fun i => u.getMsbD (96 + i))) := by
  change BinaryField.residue modulus (wordBits + (wordBits + (wordBits + wordBits))) _ = _
  rw [BinaryField.residue_add, BinaryField.residue_add, BinaryField.residue_add]
  simp only [wordBits, Nat.zero_add, ← Nat.add_assoc, Nat.reduceAdd]

/-- The product of elements stands for the product of what they stand for. -/
theorem residue_mul (u v : Element) : residue (mul u v) = residue u * residue v := by
  simp only [mul, mulBy, wordStarts, wordMultiples, List.foldl, residue_addWhere,
    residue_timesPower, residue_zero]
  rw [residue_word u 96 0 rfl, residue_word u 64 32 rfl, residue_word u 32 64 rfl,
    residue_word u 0 96 rfl, residue_eq_words u]
  ring

/-! ### The modulus is irreducible -/

/-- The indeterminate. -/
def indeterminate : Element := 1#128 <<< 126

/-- The unit element. -/
def unit : Element := 1#128 <<< 127

theorem residue_indeterminate : residue indeterminate = AdjoinRoot.root modulus := by
  have hsingle : residue indeterminate = AdjoinRoot.root modulus ^ 1 :=
    BinaryField.residue_single modulus (by decide) (by decide)
  rw [hsingle, pow_one]

theorem residue_unit : residue unit = 1 := by
  have hsingle : residue unit = AdjoinRoot.root modulus ^ 0 :=
    BinaryField.residue_single modulus (by decide) (by decide)
  rw [hsingle, pow_zero]

/-- An element squared `n` times. -/
def squares : Nat → Element → Element
  | 0, v => v
  | n + 1, v => squares n (mul v v)

theorem residue_squares (n : Nat) (v : Element) : residue (squares n v) = residue v ^ 2 ^ n := by
  induction n generalizing v with
  | zero => rw [squares, pow_zero, pow_one]
  | succ n ih => rw [squares, ih, residue_mul, ← pow_two, ← pow_mul, pow_succ']

/-- The indeterminate squared 64 times. -/
def halfway : Element := 0x6f9945a9e519a7229d4c1ad657f8a686#128

/-- The inverse of the sum of `halfway` and the indeterminate. -/
def inverseOfSum : Element := 0x180da934bf53158251c13dbb149f5279#128

theorem squares_indeterminate : squares 64 indeterminate = halfway := by decide +kernel

theorem squares_halfway : squares 64 halfway = indeterminate := by decide +kernel

/-- The polynomial by which products are reduced has no proper factor. -/
theorem irreducible_modulus : Irreducible modulus := by
  have hdegree : modulus.natDegree = 2 ^ (6 + 1) := BinaryField.natDegree_modulusOf 128 _
  have hhalf : AdjoinRoot.root modulus ^ 2 ^ 2 ^ 6 = residue halfway := by
    rw [← residue_indeterminate, ← residue_squares]
    exact congrArg residue squares_indeterminate
  have hwhole : AdjoinRoot.root modulus ^ 2 ^ 2 ^ (6 + 1) = AdjoinRoot.root modulus := by
    have hexponent : 2 ^ (6 + 1) = 2 ^ 6 + 64 := rfl
    rw [hexponent, pow_add, pow_mul, hhalf, ← residue_squares, squares_halfway,
      residue_indeterminate]
  have hunit : mul (halfway ^^^ indeterminate) inverseOfSum = unit := by decide +kernel
  apply BinaryField.irreducible_of_frobenius hdegree hwhole
  rw [hhalf, ← residue_indeterminate, ← residue_xor, ← residue_mul, hunit, residue_unit]

/-- Multiplying by an element other than zero loses nothing. -/
theorem mul_left_injective {v : Element} (hv : v ≠ 0) : Function.Injective (mul · v) := by
  have := Fact.mk irreducible_modulus
  have hresidue : residue v ≠ 0 := fun h => hv (residue_injective (h.trans residue_zero.symm))
  intro a b h
  apply residue_injective
  apply mul_right_cancel₀ hresidue
  rw [← residue_mul, ← residue_mul]
  exact congrArg residue h

end FieldVault.Gcm
