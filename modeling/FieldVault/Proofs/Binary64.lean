import FieldVault.Binary64
import Mathlib.Algebra.Order.Field.Power
import Mathlib.Tactic.NormNum
import Mathlib.Tactic.Ring

/-!
# Doubles as numbers

A finite double stands for a rational number (`number?`), which is a whole multiple of the least
positive one. The multiple grows with the magnitude bits (`units_strictMono`), so finite doubles are
compared as their numbers (`lt_iff`), although the comparison only looks at the bits.
-/

set_option autoImplicit false

namespace FieldVault.Binary64

variable {x y : Binary64} {p q : ℚ}

/-- The number that a finite double stands for. -/
def number? (x : Binary64) : Option ℚ :=
  match x.value with
  | .finite negative significand exponent =>
    some ((if negative then -1 else 1) * significand * 2 ^ exponent)
  | _ => none

/-! ### Magnitudes -/

/-- The number of some magnitude bits, in units of the least positive number. -/
def units (magnitude : Nat) : Nat :=
  if magnitude / 2 ^ 52 = 0 then magnitude % 2 ^ 52
  else (2 ^ 52 + magnitude % 2 ^ 52) * 2 ^ (magnitude / 2 ^ 52 - 1)

/-- The next magnitude either has the next significand, or the next exponent with the least one. -/
theorem units_lt_succ (magnitude : Nat) : units magnitude < units (magnitude + 1) := by
  have hmod : magnitude % 2 ^ 52 < 2 ^ 52 := Nat.mod_lt _ (by decide)
  by_cases hcarry : magnitude % 2 ^ 52 + 1 < 2 ^ 52
  · have hdiv : (magnitude + 1) / 2 ^ 52 = magnitude / 2 ^ 52 := by omega
    have hrest : (magnitude + 1) % 2 ^ 52 = magnitude % 2 ^ 52 + 1 := by omega
    rw [units, units, hdiv, hrest]
    split
    · exact Nat.lt_succ_self _
    · exact Nat.mul_lt_mul_of_pos_right (by omega) (Nat.two_pow_pos _)
  · have hdiv : (magnitude + 1) / 2 ^ 52 = magnitude / 2 ^ 52 + 1 := by omega
    have hrest : (magnitude + 1) % 2 ^ 52 = 0 := by omega
    rw [units, units, hdiv, hrest, if_neg (Nat.succ_ne_zero _), Nat.add_sub_cancel, Nat.add_zero]
    split
    · rename_i hleast
      rw [hleast]
      omega
    · rename_i hpos
      obtain ⟨e, he⟩ := Nat.exists_eq_succ_of_ne_zero hpos
      rw [he, Nat.succ_sub_one]
      calc (2 ^ 52 + magnitude % 2 ^ 52) * 2 ^ e < (2 ^ 52 * 2) * 2 ^ e :=
            Nat.mul_lt_mul_of_pos_right (by omega) (Nat.two_pow_pos _)
        _ = 2 ^ 52 * 2 ^ (e + 1) := by ring

theorem units_strictMono : StrictMono units := strictMono_nat_of_lt_succ units_lt_succ

/-- The number of a finite double, in units of the least positive one. -/
def scaled (x : Binary64) : Int := if x.isNegative then -units x.magnitude else units x.magnitude

theorem number?_of_isFinite (h : x.isFinite = true) :
    x.number? = some ((x.scaled : ℚ) * 2 ^ minExponent) := by
  have hlt : x.magnitude < infinityMagnitude := of_decide_eq_true h
  have hscaled : (x.scaled : ℚ) = (if x.isNegative then -1 else 1) * units x.magnitude := by
    rw [scaled]
    split <;> simp
  rw [number?, value, if_neg (Nat.not_lt_of_le hlt.le), if_neg hlt.ne, hscaled, units]
  simp only [Nat.shiftRight_eq_div_pow, Nat.one_shiftLeft]
  by_cases hleast : x.magnitude / 2 ^ 52 = 0
  · rw [if_pos hleast, if_pos hleast]
  · have hexponent : ((x.magnitude / 2 ^ 52 : Nat) : Int) - 1 =
        ((x.magnitude / 2 ^ 52 - 1 : Nat) : Int) := by omega
    rw [if_neg hleast, if_neg hleast, hexponent]
    dsimp only
    apply congrArg some
    rw [zpow_add₀ two_ne_zero, zpow_natCast]
    push_cast
    ring

theorem isFinite_of_number? (h : x.number? = some q) : x.isFinite = true := by
  rw [number?, value] at h
  by_cases hnan : infinityMagnitude < x.magnitude
  · rw [if_pos hnan] at h
    cases h
  · by_cases hinfinite : x.magnitude = infinityMagnitude
    · rw [if_neg hnan, if_pos hinfinite] at h
      cases h
    · apply decide_eq_true
      omega

theorem number?_eq_some_iff :
    x.number? = some q ↔ x.isFinite = true ∧ (x.scaled : ℚ) * 2 ^ minExponent = q := by
  constructor
  · intro h
    have hfinite := isFinite_of_number? h
    exact ⟨hfinite, Option.some.inj ((number?_of_isFinite hfinite).symm.trans h)⟩
  · rintro ⟨hfinite, rfl⟩
    exact number?_of_isFinite hfinite

theorem isFinite_iff : x.isFinite = true ↔ ∃ q, x.number? = some q := by
  simp [number?_eq_some_iff]

theorem isNaN_of_isFinite (h : x.isFinite = true) : x.isNaN = false := by
  simp only [isFinite, isNaN, decide_eq_true_eq, decide_eq_false_iff_not] at *
  omega

/-! ### Comparing -/

/-- The place of a double in the order of the bits is its place among the numbers. -/
theorem rank_lt_rank_iff : x.rank < y.rank ↔ x.scaled < y.scaled := by
  have hzero (magnitude : Nat) : units magnitude = 0 ↔ magnitude = 0 :=
    units_strictMono.injective.eq_iff (b := 0)
  have hx := hzero x.magnitude
  have hy := hzero y.magnitude
  have hlt := units_strictMono.lt_iff_lt (a := x.magnitude) (b := y.magnitude)
  have hgt := units_strictMono.lt_iff_lt (a := y.magnitude) (b := x.magnitude)
  rw [rank, rank, scaled, scaled]
  -- both zeros are at the place zero
  split <;> split <;> omega

/-- The places of finite doubles are ordered as the numbers they stand for. -/
theorem rank_lt_iff (hx : x.number? = some p) (hy : y.number? = some q) :
    x.rank < y.rank ↔ p < q := by
  obtain ⟨-, rfl⟩ := number?_eq_some_iff.1 hx
  obtain ⟨-, rfl⟩ := number?_eq_some_iff.1 hy
  have hunit : (0 : ℚ) < 2 ^ minExponent := zpow_pos two_pos _
  rw [mul_lt_mul_iff_left₀ hunit, Int.cast_lt, rank_lt_rank_iff]

/-- Finite doubles are compared as the numbers they stand for. -/
theorem lt_iff (hx : x.number? = some p) (hy : y.number? = some q) : x.lt y = true ↔ p < q := by
  rw [lt, isNaN_of_isFinite (isFinite_of_number? hx), isNaN_of_isFinite (isFinite_of_number? hy),
    ← rank_lt_iff hx hy]
  simp

theorem le_iff (hx : x.number? = some p) (hy : y.number? = some q) : x.le y = true ↔ p ≤ q := by
  have hrank : x.rank ≤ y.rank ↔ p ≤ q :=
    not_lt.symm.trans ((not_congr (rank_lt_iff hy hx)).trans not_lt)
  rw [le, isNaN_of_isFinite (isFinite_of_number? hx), isNaN_of_isFinite (isFinite_of_number? hy),
    ← hrank]
  simp

theorem value_eq_infinite_iff {negative : Bool} :
    x.value = .infinite negative ↔
      x.magnitude = infinityMagnitude ∧ x.isNegative = negative := by
  rw [value]
  split
  · constructor
    · nofun
    · rintro ⟨hinfinite, -⟩
      omega
  · split
    · simp [*]
    · dsimp only
      split <;> simp [*]

theorem number?_one : one.number? = some 1 := by
  have hvalue : one.value = .finite false (2 ^ 52) (-52) := by decide
  rw [number?, hvalue]
  norm_num

theorem number?_zero : (zero false).number? = some 0 := by
  have hvalue : (zero false).value = .finite false 0 minExponent := by decide
  rw [number?, hvalue]
  norm_num

/-- Of what is no finite number, only infinity is greater than one. -/
theorem one_lt_iff_infinite (h : x.isFinite ≠ true) :
    one.lt x = true ↔ x.value = .infinite false := by
  have hle : infinityMagnitude ≤ x.magnitude := by
    rw [isFinite, ne_eq, decide_eq_true_eq] at h
    exact Nat.le_of_not_lt h
  have hone : one.isNaN = false := by decide
  have hrank : one.rank < infinityMagnitude ∧ 0 < one.rank := by decide
  have hlt : one.lt x = true ↔ x.magnitude ≤ infinityMagnitude ∧ one.rank < x.rank := by
    rw [lt, hone]
    simp [isNaN]
  have hcases : x.rank = if x.isNegative then -(x.magnitude : Int) else x.magnitude := rfl
  rw [hlt, value_eq_infinite_iff]
  cases hnegative : x.isNegative with
  | false =>
    rw [hnegative, if_neg Bool.false_ne_true] at hcases
    rw [and_iff_left rfl]
    omega
  | true =>
    rw [hnegative, if_pos rfl] at hcases
    constructor
    · intro h
      omega
    · rintro ⟨-, h⟩
      cases h

/-- Greater than one are the numbers that are, and infinity. -/
theorem one_lt_iff :
    one.lt x = true ↔ x.value = .infinite false ∨ ∃ q, x.number? = some q ∧ 1 < q := by
  by_cases hfinite : x.isFinite = true
  · obtain ⟨q, hq⟩ := isFinite_iff.1 hfinite
    have hvalue : x.value ≠ .infinite false := by
      intro h
      have hlt : x.magnitude < infinityMagnitude := of_decide_eq_true hfinite
      exact hlt.ne (value_eq_infinite_iff.1 h).1
    rw [lt_iff number?_one hq, or_iff_right hvalue]
    simp [hq]
  · have hnone : ¬ ∃ q, x.number? = some q ∧ 1 < q := by
      rintro ⟨q, hq, -⟩
      exact hfinite (isFinite_of_number? hq)
    rw [or_iff_left hnone]
    exact one_lt_iff_infinite hfinite

end FieldVault.Binary64
