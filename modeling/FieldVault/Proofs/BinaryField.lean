import Mathlib.FieldTheory.Finite.Extension

/-!
# Strings of bits as residues

Both parts of the cipher compute with strings of bits that stand for polynomials over the field of
two elements, reduced by a fixed polynomial. `residue` is the residue that such a string stands for:
exclusive or is addition (`residue_xor`), moving every bit up by one place is multiplication by the
indeterminate (`root_mul_residue`), and only the string of zeros stands for zero if the modulus has
the degree of the string (`eq_false_of_residue_eq_zero`).

Whether the modulus is irreducible can be decided by squaring the indeterminate
(`irreducible_of_frobenius`).
-/

set_option autoImplicit false

namespace FieldVault.BinaryField

open Polynomial Finset

variable (modulus : (ZMod 2)[X])

/-- The residue of the polynomial whose coefficients are the first `width` bits. -/
noncomputable def residue (width : Nat) (bit : Nat → Bool) : AdjoinRoot modulus :=
  ∑ i ∈ range width, if bit i then AdjoinRoot.root modulus ^ i else 0

/-- The polynomial whose coefficients are the first `width` bits. -/
noncomputable def polynomial (width : Nat) (bit : Nat → Bool) : (ZMod 2)[X] :=
  ∑ i ∈ range width, if bit i then X ^ i else 0

variable {width : Nat} {bit : Nat → Bool}

theorem residue_congr {first second : Nat → Bool} (h : ∀ i < width, first i = second i) :
    residue modulus width first = residue modulus width second :=
  sum_congr rfl fun i hi => by rw [h i (mem_range.1 hi)]

theorem coeff_polynomial (i : Nat) :
    (polynomial width bit).coeff i = if i < width ∧ bit i then 1 else 0 := by
  have hterm (j : Nat) : (if bit j then (X : (ZMod 2)[X]) ^ j else 0).coeff i =
      if j = i then (if bit j then 1 else 0) else 0 := by
    by_cases hbit : bit j
    · simp [hbit, coeff_X_pow, eq_comm]
    · simp [hbit]
  simp only [polynomial, finsetSum_coeff, hterm, sum_ite_eq', mem_range]
  by_cases hi : i < width <;> simp [hi]

theorem mk_polynomial :
    AdjoinRoot.mk modulus (polynomial width bit) = residue modulus width bit := by
  simp only [polynomial, residue, map_sum, apply_ite (AdjoinRoot.mk modulus), map_pow,
    AdjoinRoot.mk_X, map_zero]

theorem degree_polynomial_lt : (polynomial width bit).degree < width := by
  rw [degree_lt_iff_coeff_zero]
  intro i hi
  rw [coeff_polynomial, if_neg fun h => Nat.not_lt.2 hi h.1]

/-! ### Addition -/

/-- Every residue is its own opposite. -/
theorem add_self (a : AdjoinRoot modulus) : a + a = 0 := by
  have htwo : (2 : ZMod 2) = 0 := rfl
  rw [← two_smul (ZMod 2) a, htwo, zero_smul]

theorem sub_eq_add (a b : AdjoinRoot modulus) : a - b = a + b := by
  rw [sub_eq_iff_eq_add, add_assoc, add_self, add_zero]

/-- Exclusive or of the bits is addition. -/
theorem residue_xor (first second : Nat → Bool) :
    residue modulus width (fun i => first i ^^ second i) =
      residue modulus width first + residue modulus width second := by
  rw [residue, residue, residue, ← sum_add_distrib]
  refine sum_congr rfl fun i _ => ?_
  cases first i <;> cases second i <;> simp [add_self]

/-! ### Moduli -/

/-- The monic polynomial of degree `width` whose other coefficients are given bits. -/
noncomputable def modulusOf (width : Nat) (tail : Nat → Bool) : (ZMod 2)[X] :=
  X ^ width + polynomial width tail

theorem degree_modulusOf (width : Nat) (tail : Nat → Bool) :
    (modulusOf width tail).degree = width := by
  have hlt : (polynomial width tail).degree < (X ^ width : (ZMod 2)[X]).degree := by
    rw [degree_X_pow]
    exact degree_polynomial_lt
  rw [modulusOf, degree_add_eq_left_of_degree_lt hlt, degree_X_pow]

theorem natDegree_modulusOf (width : Nat) (tail : Nat → Bool) :
    (modulusOf width tail).natDegree = width :=
  natDegree_eq_of_degree_eq_some (degree_modulusOf width tail)

/-- A string as long as the degree of the modulus stands for zero only if all its bits are unset. -/
theorem eq_false_of_residue_eq_zero {tail : Nat → Bool}
    (hzero : residue (modulusOf width tail) width bit = 0) {i : Nat} (hi : i < width) :
    bit i = false := by
  rw [← mk_polynomial, AdjoinRoot.mk_eq_zero] at hzero
  have hlt : (polynomial width bit).degree < (modulusOf width tail).degree := by
    rw [degree_modulusOf]
    exact degree_polynomial_lt
  have hcoeff := @coeff_polynomial width bit i
  rw [eq_zero_of_dvd_of_degree_lt hzero hlt, coeff_zero] at hcoeff
  cases hbit : bit i with
  | false => rfl
  | true => simp [hi, hbit] at hcoeff

/-- Strings as long as the degree of the modulus that stand for the same residue are the same. -/
theorem eq_of_residue_eq {tail first second : Nat → Bool}
    (h : residue (modulusOf width tail) width first = residue (modulusOf width tail) width second)
    {i : Nat} (hi : i < width) : first i = second i := by
  have hzero : residue (modulusOf width tail) width (fun i => first i ^^ second i) = 0 := by
    rw [residue_xor, h, add_self]
  simpa using eq_false_of_residue_eq_zero hzero hi

/-- The power of the indeterminate that is out of range is what the other coefficients stand for. -/
theorem root_pow_width (width : Nat) (tail : Nat → Bool) :
    AdjoinRoot.root (modulusOf width tail) ^ width = residue (modulusOf width tail) width tail := by
  have hzero : AdjoinRoot.mk (modulusOf width tail) (X ^ width + polynomial width tail) = 0 :=
    AdjoinRoot.mk_self
  rwa [map_add, map_pow, AdjoinRoot.mk_X, mk_polynomial, ← sub_eq_add, sub_eq_zero] at hzero

/-! ### Multiplication by the indeterminate -/

/-- A single bit stands for a power of the indeterminate. -/
theorem residue_single {k : Nat} (hk : k < width) (h : ∀ i < width, bit i = (i == k)) :
    residue modulus width bit = AdjoinRoot.root modulus ^ k := by
  rw [residue_congr modulus h, residue]
  simp [hk]

/-- A string in two parts: the second is multiplied by a power of the indeterminate. -/
theorem residue_add (first second : Nat) (bit : Nat → Bool) :
    residue modulus (first + second) bit =
      residue modulus first bit +
        AdjoinRoot.root modulus ^ first * residue modulus second fun i => bit (first + i) := by
  simp only [residue, sum_range_add, mul_sum, mul_ite, mul_zero, pow_add]

/-- One bit in front of a string: the rest is multiplied by the indeterminate. -/
theorem residue_succ (width : Nat) (bit : Nat → Bool) :
    residue modulus (width + 1) bit =
      AdjoinRoot.root modulus * residue modulus width (fun i => bit (i + 1)) +
        if bit 0 then 1 else 0 := by
  simp only [residue, sum_range_succ', mul_sum, mul_ite, mul_zero, pow_succ', pow_zero]

/-- Multiplication by the indeterminate moves the bits up by one place, and the last bit goes over
the end. -/
theorem root_mul_residue (width : Nat) (bit : Nat → Bool) :
    AdjoinRoot.root modulus * residue modulus (width + 1) bit =
      residue modulus (width + 1) (fun i => 0 < i && bit (i - 1)) +
        if bit width then AdjoinRoot.root modulus ^ (width + 1) else 0 := by
  rw [residue_succ modulus width fun i => 0 < i && bit (i - 1)]
  simp [residue, sum_range_succ, mul_add, pow_succ']

/-! ### Frobenius powers -/

variable {modulus}

/-- If the indeterminate is its own power `2 ^ n`, then so is every residue. -/
theorem pow_eq_self_of_root {n : Nat}
    (hroot : AdjoinRoot.root modulus ^ 2 ^ n = AdjoinRoot.root modulus)
    (a : AdjoinRoot modulus) : a ^ 2 ^ n = a := by
  have hpower (b : AdjoinRoot modulus) :
      (FiniteField.frobeniusAlgHom (ZMod 2) (AdjoinRoot modulus) ^ n) b = b ^ 2 ^ n := by
    rw [AlgHom.coe_pow, FiniteField.coe_frobeniusAlgHom, pow_iterate, ZMod.card]
  -- the power is a homomorphism, so it is settled by what it makes of the indeterminate
  have hid : FiniteField.frobeniusAlgHom (ZMod 2) (AdjoinRoot modulus) ^ n = AlgHom.id _ _ := by
    apply AdjoinRoot.algHom_ext
    rw [hpower, hroot, AlgHom.id_apply]
  rw [← hpower, hid, AlgHom.id_apply]

/-- A modulus whose degree is a power of two is irreducible if the indeterminate is a fixed point of
the Frobenius power for the degree, and no factor has fixed points at half of it. -/
theorem irreducible_of_frobenius {k : Nat} (hdegree : modulus.natDegree = 2 ^ (k + 1))
    (hroot : AdjoinRoot.root modulus ^ 2 ^ 2 ^ (k + 1) = AdjoinRoot.root modulus)
    {inverse : AdjoinRoot modulus}
    (hunit : (AdjoinRoot.root modulus ^ 2 ^ 2 ^ k + AdjoinRoot.root modulus) * inverse = 1) :
    Irreducible modulus := by
  have hpositive : 0 < modulus.natDegree := by
    rw [hdegree]
    positivity
  have hzero : modulus ≠ 0 := ne_zero_of_natDegree_gt hpositive
  -- it is enough to look at one irreducible factor
  obtain ⟨factor, hirreducible, hdvd⟩ :=
    WfDvdMonoid.exists_irreducible_factor (not_isUnit_of_natDegree_pos _ hpositive) hzero
  -- its degree divides that of the modulus, since it divides what the indeterminate is a root of
  have hwhole : factor.natDegree ∣ 2 ^ (k + 1) := by
    apply hirreducible.natDegree_dvd_of_dvd_X_pow_card_pow_sub_X
    rw [Nat.card_zmod]
    refine hdvd.trans (AdjoinRoot.mk_eq_zero.1 ?_)
    rw [map_sub, map_pow, AdjoinRoot.mk_X, hroot, sub_self]
  -- but not the half of that, since a factor of two coprime polynomials is a unit
  have hhalf : ¬ factor.natDegree ∣ 2 ^ k := by
    rw [hirreducible.natDegree_dvd_iff_dvd_X_pow_card_pow_sub_X, Nat.card_zmod]
    intro hfactor
    obtain ⟨other, rfl⟩ := AdjoinRoot.mk_surjective inverse
    have hone : modulus ∣ (X ^ 2 ^ 2 ^ k - X) * other - 1 := by
      rw [← AdjoinRoot.mk_eq_zero, map_sub, map_mul, map_sub, map_pow, AdjoinRoot.mk_X, map_one,
        sub_eq_add modulus (_ ^ _), hunit, sub_self]
    have hdiff : factor ∣ (X ^ 2 ^ 2 ^ k - X) * other - 1 := hdvd.trans hone
    exact hirreducible.not_dvd_one ((dvd_sub_right (hfactor.mul_right other)).1 hdiff)
  obtain ⟨m, hm, hpower⟩ := (Nat.dvd_prime_pow Nat.prime_two).1 hwhole
  have htop : m = k + 1 := by
    by_contra hne
    exact hhalf (hpower ▸ pow_dvd_pow 2 (by omega))
  have hsame : Associated factor modulus :=
    associated_of_dvd_of_natDegree_le hdvd hzero (by rw [hpower, htop, hdegree])
  exact hsame.irreducible hirreducible

end FieldVault.BinaryField
