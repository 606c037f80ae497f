import FieldVault.Proofs.Binary64
import Mathlib.Algebra.Order.Floor.Semifield
import Mathlib.Data.Rat.Floor
import Mathlib.Tactic.FieldSimp
import Mathlib.Tactic.Linarith
import Mathlib.Tactic.LinearCombination
import Mathlib.Tactic.Positivity

/-!
# Rounding

A number is rounded to the nearest double, and halfway between two doubles to the one with the even
bits. `Nearest` says so of the magnitude bits, which are numbered in the order of the doubles; so
rounding is monotone (`Nearest.le`), determined (`Nearest.unique`) and exact where it can be
(`nearest_numberOf`). `ofRatio` rounds in this sense, and whatever lies beyond the finite doubles
becomes infinity (`exists_nearest_ofRatio`).
-/

set_option autoImplicit false

namespace FieldVault.Binary64

/-! ### Nearest magnitudes -/

/-- The number of some magnitude bits. -/
def numberOf (magnitude : Nat) : ℚ := units magnitude * 2 ^ minExponent

/-- Some magnitude bits are the nearest ones to a number. Halfway between two magnitudes it is the
even one. -/
structure Nearest (number : ℚ) (magnitude : Nat) : Prop where
  notAbove : 2 * number < numberOf magnitude + numberOf (magnitude + 1) ∨
    2 * number = numberOf magnitude + numberOf (magnitude + 1) ∧ magnitude % 2 = 0
  notBelow : ∀ lower, magnitude = lower + 1 →
    numberOf lower + numberOf magnitude < 2 * number ∨
      numberOf lower + numberOf magnitude = 2 * number ∧ magnitude % 2 = 0

section

variable {s t : ℚ} {j k : Nat}

theorem numberOf_strictMono : StrictMono numberOf := by
  intro j k hlt
  have hunit : (0 : ℚ) < 2 ^ minExponent := by positivity
  have hunits : (units j : ℚ) < units k := by exact_mod_cast units_strictMono hlt
  exact mul_lt_mul_of_pos_right hunits hunit

@[simp] theorem numberOf_zero : numberOf 0 = 0 := by
  have hzero : units 0 = 0 := rfl
  rw [numberOf, hzero, Nat.cast_zero, zero_mul]

theorem numberOf_nonneg (k : Nat) : 0 ≤ numberOf k := by
  rw [← numberOf_zero]
  exact numberOf_strictMono.monotone k.zero_le

theorem Nearest.two_mul_le (h : Nearest t k) : 2 * t ≤ numberOf k + numberOf (k + 1) :=
  h.notAbove.elim le_of_lt fun h => h.1.le

theorem Nearest.le_two_mul (h : Nearest t (j + 1)) : numberOf j + numberOf (j + 1) ≤ 2 * t :=
  (h.notBelow j rfl).elim le_of_lt fun h => h.1.le

/-- A greater number has no smaller nearest magnitude. -/
theorem Nearest.le (hs : Nearest s j) (ht : Nearest t k) (hle : s ≤ t) : j ≤ k := by
  by_contra hlt
  obtain ⟨i, rfl⟩ : ∃ i, j = i + 1 := Nat.exists_eq_succ_of_ne_zero (by omega)
  have hlow : numberOf k ≤ numberOf i := numberOf_strictMono.monotone (by omega)
  have hhigh : numberOf (k + 1) ≤ numberOf (i + 1) := numberOf_strictMono.monotone (by omega)
  have hs' := hs.le_two_mul
  have ht' := ht.two_mul_le
  -- so both numbers lie halfway between `k` and `k + 1`, and both of these are even
  have hik : i = k := numberOf_strictMono.injective (by linarith)
  subst hik
  have heven : i % 2 = 0 := ht.notAbove.elim (fun h => by linarith) And.right
  have heven' : (i + 1) % 2 = 0 := (hs.notBelow i rfl).elim (fun h => by linarith) And.right
  omega

theorem Nearest.unique (h : Nearest t j) (h' : Nearest t k) : j = k :=
  le_antisymm (h.le h' le_rfl) (h'.le h le_rfl)

/-- The number of some magnitude bits is rounded to itself. -/
theorem nearest_numberOf (k : Nat) : Nearest (numberOf k) k := by
  constructor
  · left
    linarith [numberOf_strictMono k.lt_succ_self]
  · rintro j rfl
    left
    linarith [numberOf_strictMono j.lt_succ_self]

theorem Nearest.le_of_two_mul_lt (h : Nearest t k) (hlt : 2 * t < numberOf j + numberOf (j + 1)) :
    k ≤ j := by
  by_contra hgt
  obtain ⟨i, rfl⟩ : ∃ i, k = i + 1 := Nat.exists_eq_succ_of_ne_zero (by omega)
  have hlow : numberOf j ≤ numberOf i := numberOf_strictMono.monotone (by omega)
  have hhigh : numberOf (j + 1) ≤ numberOf (i + 1) := numberOf_strictMono.monotone (by omega)
  linarith [h.le_two_mul]

theorem Nearest.le_of_le_numberOf (h : Nearest t k) (hle : t ≤ numberOf j) : k ≤ j :=
  h.le (nearest_numberOf j) hle

end

/-! ### Quotients -/

/-- A quotient is rounded to the nearest whole number, on a tie to the even one. -/
theorem divideToEven_spec (n : Nat) {d : Nat} (hd : 0 < d) :
    (2 * n < (2 * divideToEven n d + 1) * d ∨
      2 * n = (2 * divideToEven n d + 1) * d ∧ divideToEven n d % 2 = 0) ∧
    (2 * divideToEven n d * d < 2 * n + d ∨
      2 * divideToEven n d * d = 2 * n + d ∧ divideToEven n d % 2 = 0) := by
  have hn : d * (n / d) + n % d = n := Nat.div_add_mod n d
  have hr : n % d < d := Nat.mod_lt n hd
  have hmul (q : Nat) : (2 * q + 1) * d = 2 * (d * q) + d ∧ 2 * q * d = 2 * (d * q) := by
    constructor <;> ring
  have hsucc (q : Nat) : d * (q + 1) = d * q + d := Nat.mul_succ d q
  rw [(hmul _).1, (hmul _).2, divideToEven]
  split
  · omega
  · split
    · rw [hsucc]
      omega
    · obtain h | h : n / d % 2 = 0 ∨ n / d % 2 = 1 := by omega
      · rw [h, Nat.add_zero]
        omega
      · rw [h, hsucc]
        omega

theorem divideToEven_le {n d m : Nat} (hd : 0 < d) (h : n ≤ m * d) : divideToEven n d ≤ m := by
  by_contra hlt
  have hmul : (2 * m + 2) * d ≤ 2 * divideToEven n d * d := Nat.mul_le_mul_right d (by omega)
  have hsplit : (2 * m + 2) * d = 2 * (m * d) + 2 * d := by ring
  obtain ⟨-, hbelow⟩ := divideToEven_spec n hd
  omega

theorem le_divideToEven {n d m : Nat} (hd : 0 < d) (h : m * d ≤ n) : m ≤ divideToEven n d := by
  by_contra hlt
  have hmul : (2 * divideToEven n d + 1 + 1) * d ≤ 2 * m * d := Nat.mul_le_mul_right d (by omega)
  have hsplit : (2 * divideToEven n d + 1 + 1) * d = (2 * divideToEven n d + 1) * d + d := by ring
  have hdouble : 2 * m * d = 2 * (m * d) := by ring
  obtain ⟨habove, -⟩ := divideToEven_spec n hd
  omega

/-- The rounded quotient is within one half of the quotient, and even if it is exactly that far. -/
theorem divideToEven_within_half (n : Nat) {d : Nat} (hd : 0 < d) :
    (2 * (n / d : ℚ) < 2 * divideToEven n d + 1 ∨
      2 * (n / d : ℚ) = 2 * divideToEven n d + 1 ∧ divideToEven n d % 2 = 0) ∧
    ((2 * divideToEven n d : ℚ) < 2 * (n / d) + 1 ∨
      (2 * divideToEven n d : ℚ) = 2 * (n / d) + 1 ∧ divideToEven n d % 2 = 0) := by
  have hdpos : (0 : ℚ) < d := by exact_mod_cast hd
  have hn : (n : ℚ) = n / d * d := (div_mul_cancel₀ _ hdpos.ne').symm
  obtain ⟨habove, hbelow⟩ := divideToEven_spec n hd
  generalize divideToEven n d = r at habove hbelow ⊢
  constructor
  · refine habove.imp (fun h => ?_) fun h => ⟨?_, h.2⟩
    · have hrat : (2 * n : ℚ) < (2 * r + 1) * d := by exact_mod_cast h
      nlinarith
    · have hrat : (2 * n : ℚ) = (2 * r + 1) * d := by exact_mod_cast h.1
      field_simp
      linarith
  · refine hbelow.imp (fun h => ?_) fun h => ⟨?_, h.2⟩
    · have hrat : (2 * r * d : ℚ) < 2 * n + d := by exact_mod_cast h
      nlinarith
    · have hrat : (2 * r * d : ℚ) = 2 * n + d := by exact_mod_cast h.1
      field_simp
      linarith

/-- Scaling a quotient divides it by a power of two. -/
theorem scale_div (n d : Nat) (e : Int) :
    ((scale n d e).1 / (scale n d e).2 : ℚ) = n / d * 2 ^ (-e) := by
  rw [scale]
  obtain ⟨k, rfl | rfl⟩ := Int.eq_nat_or_neg e
  · simp [Nat.shiftLeft_eq, div_eq_mul_inv, mul_assoc, mul_comm]
  · simp [Nat.shiftLeft_eq, div_eq_mul_inv, mul_right_comm]

theorem scale_snd_pos (n : Nat) {d : Nat} (hd : 0 < d) (e : Int) : 0 < (scale n d e).2 := by
  change 0 < d <<< e.toNat
  rw [Nat.shiftLeft_eq]
  exact Nat.mul_pos hd (Nat.two_pow_pos _)

theorem scale_lt_iff (n : Nat) {d : Nat} (hd : 0 < d) (e : Int) :
    (scale n d e).1 < (scale n d e).2 ↔ (n / d : ℚ) < 2 ^ e := by
  have hpos : (0 : ℚ) < (scale n d e).2 := by exact_mod_cast scale_snd_pos n hd e
  have hpower : (0 : ℚ) < 2 ^ e := by positivity
  rw [← Nat.cast_lt (α := ℚ), ← div_lt_one hpos, scale_div, zpow_neg, ← div_eq_mul_inv,
    div_lt_one hpower]

/-- The exponent is the one at which a quotient has 53 bits. -/
theorem exponentOf_spec {n d : Nat} (hn : 0 < n) (hd : 0 < d) :
    (2 : ℚ) ^ (exponentOf n d + 52) ≤ n / d ∧ (n / d : ℚ) < 2 ^ (exponentOf n d + 53) := by
  have hbounds (m : Nat) (hm : 0 < m) :
      (2 : ℚ) ^ (m.log2 : Int) ≤ m ∧ (m : ℚ) < 2 ^ ((m.log2 : Int) + 1) := by
    constructor
    · exact_mod_cast Nat.log2_self_le hm.ne'
    · exact_mod_cast Nat.lt_log2_self
  obtain ⟨hnlow, hnhigh⟩ := hbounds n hn
  obtain ⟨hdlow, hdhigh⟩ := hbounds d hd
  have hdpos : (0 : ℚ) < d := by exact_mod_cast hd
  -- the quotient is within a factor of two of the guess
  have hlow : (2 : ℚ) ^ ((n.log2 : Int) - d.log2 - 1) ≤ n / d := by
    rw [le_div_iff₀ hdpos]
    calc (2 : ℚ) ^ ((n.log2 : Int) - d.log2 - 1) * d
        ≤ 2 ^ ((n.log2 : Int) - d.log2 - 1) * 2 ^ ((d.log2 : Int) + 1) := by gcongr
      _ = 2 ^ (n.log2 : Int) := by rw [← zpow_add₀ two_ne_zero]; congr 1; ring
      _ ≤ n := hnlow
  have hhigh : (n / d : ℚ) < 2 ^ ((n.log2 : Int) - d.log2 + 1) := by
    rw [div_lt_iff₀ hdpos]
    calc (n : ℚ) < 2 ^ ((n.log2 : Int) + 1) := hnhigh
      _ = 2 ^ ((n.log2 : Int) - d.log2 + 1) * 2 ^ (d.log2 : Int) := by
        rw [← zpow_add₀ two_ne_zero]; congr 1; ring
      _ ≤ 2 ^ ((n.log2 : Int) - d.log2 + 1) * d := by gcongr
  have hshift : ∀ e : Int, (2 : ℚ) ^ e ≤ n / d → (n / d : ℚ) < 2 ^ (e + 1) →
      (2 : ℚ) ^ (e - 52 + 52) ≤ n / d ∧ (n / d : ℚ) < 2 ^ (e - 52 + 53) := by
    intro e hle hlt
    rw [sub_add_cancel, show e - 52 + 53 = e + 1 by ring]
    exact ⟨hle, hlt⟩
  rw [exponentOf]
  dsimp only
  split
  · rename_i hlt
    rw [scale_lt_iff n hd] at hlt
    refine hshift _ hlow ?_
    rwa [sub_add_cancel]
  · rename_i hge
    rw [scale_lt_iff n hd, not_lt] at hge
    exact hshift _ hge hhigh

/-! ### Rounding a quotient -/

/-- The exponent of the last place of a rounded quotient. -/
def roundingExponent (n d : Nat) : Int := max minExponent (exponentOf n d)

/-- The magnitude bits of a rounded quotient, as if there were no greatest finite double. -/
def roundedMagnitude (n d : Nat) : Nat :=
  (roundingExponent n d - minExponent).toNat * 2 ^ 52 +
    divideToEven (scale n d (roundingExponent n d)).1 (scale n d (roundingExponent n d)).2

/-- Magnitude bits are put together from a significand and an exponent. The leading bit of the
significand and a carry out of it each add one to the exponent. -/
theorem units_add {exponent significand : Nat} (hlow : exponent = 0 ∨ 2 ^ 52 ≤ significand)
    (hhigh : significand ≤ 2 ^ 53) :
    units (exponent * 2 ^ 52 + significand) = significand * 2 ^ exponent := by
  rw [units]
  obtain hsmall | hnormal | hcarry : significand < 2 ^ 52 ∨
      (2 ^ 52 ≤ significand ∧ significand < 2 ^ 53) ∨ significand = 2 ^ 53 := by omega
  · have hzero : exponent = 0 := by omega
    subst hzero
    rw [if_pos (by omega)]
    omega
  · rw [if_neg (by omega)]
    have hdiv : (exponent * 2 ^ 52 + significand) / 2 ^ 52 = exponent + 1 := by omega
    have hmod : 2 ^ 52 + (exponent * 2 ^ 52 + significand) % 2 ^ 52 = significand := by omega
    rw [hdiv, hmod, Nat.add_sub_cancel]
  · subst hcarry
    rw [if_neg (by omega)]
    have hdiv : (exponent * 2 ^ 52 + 2 ^ 53) / 2 ^ 52 = exponent + 2 := by omega
    have hmod : 2 ^ 52 + (exponent * 2 ^ 52 + 2 ^ 53) % 2 ^ 52 = 2 ^ 52 := by omega
    rw [hdiv, hmod]
    calc 2 ^ 52 * 2 ^ (exponent + 2 - 1) = 2 ^ 52 * (2 ^ exponent * 2) := by
          rw [← Nat.pow_succ]
          rfl
      _ = 2 ^ 53 * 2 ^ exponent := by ring

/-- The number of magnitude bits with a significand of at most 53 bits. -/
theorem numberOf_add {exponent significand : Nat} (hlow : exponent = 0 ∨ 2 ^ 52 ≤ significand)
    (hhigh : significand ≤ 2 ^ 53) :
    numberOf (exponent * 2 ^ 52 + significand) =
      significand * 2 ^ ((exponent : Int) + minExponent) := by
  rw [numberOf, units_add hlow hhigh, Nat.cast_mul, Nat.cast_pow, mul_assoc,
    zpow_add₀ two_ne_zero, zpow_natCast, Nat.cast_ofNat]

theorem two_zpow_succ_add (exponent : Nat) :
    (2 : ℚ) ^ (((exponent + 1 : Nat) : Int) + minExponent) =
      2 * 2 ^ ((exponent : Int) + minExponent) := by
  rw [← zpow_one_add₀ two_ne_zero, Nat.cast_succ, ← add_assoc, add_comm 1 (exponent : Int)]

/-- The magnitude after one with a significand of at most 53 bits is a unit of the last place above
it, or two if the significand is full. -/
theorem le_numberOf_add_succ {exponent significand : Nat}
    (hlow : exponent = 0 ∨ 2 ^ 52 ≤ significand) (hhigh : significand ≤ 2 ^ 53) :
    (significand + 1) * 2 ^ ((exponent : Int) + minExponent) ≤
        numberOf (exponent * 2 ^ 52 + significand + 1) ∧
      (significand < 2 ^ 53 → numberOf (exponent * 2 ^ 52 + significand + 1) =
        (significand + 1) * 2 ^ ((exponent : Int) + minExponent)) := by
  obtain hless | hfull := Nat.lt_or_eq_of_le hhigh
  · have hnext : numberOf (exponent * 2 ^ 52 + significand + 1) =
        (significand + 1) * 2 ^ ((exponent : Int) + minExponent) := by
      rw [Nat.add_assoc, numberOf_add (by omega) (by omega), Nat.cast_succ]
    exact ⟨hnext.ge, fun _ => hnext⟩
  · subst hfull
    refine ⟨?_, fun h => absurd h (Nat.lt_irrefl _)⟩
    have hsum : exponent * 2 ^ 52 + 2 ^ 53 + 1 = (exponent + 1) * 2 ^ 52 + (2 ^ 52 + 1) := by omega
    have hplace : (0 : ℚ) < 2 ^ ((exponent : Int) + minExponent) := by positivity
    rw [hsum, numberOf_add (.inr (by decide)) (by decide), two_zpow_succ_add]
    push_cast
    linarith

/-- The magnitude before one is a unit of the last place below it. Before a power of two it is half
as far away. -/
theorem numberOf_add_pred {exponent significand lower : Nat}
    (hlow : exponent = 0 ∨ 2 ^ 52 ≤ significand) (hhigh : significand ≤ 2 ^ 53)
    (hlower : exponent * 2 ^ 52 + significand = lower + 1) :
    (∃ r, significand = r + 1 ∧ (exponent = 0 ∨ 2 ^ 52 < significand) ∧
        numberOf lower = r * 2 ^ ((exponent : Int) + minExponent)) ∨
      ∃ e, exponent = e + 1 ∧ significand = 2 ^ 52 ∧
        numberOf lower = (2 ^ 53 - 1) * 2 ^ ((e : Int) + minExponent) := by
  by_cases hleast : exponent = 0 ∨ 2 ^ 52 < significand
  · left
    obtain ⟨r, rfl⟩ : ∃ r, significand = r + 1 := Nat.exists_eq_succ_of_ne_zero (by omega)
    refine ⟨r, rfl, hleast, ?_⟩
    have hsum : lower = exponent * 2 ^ 52 + r := by omega
    rw [hsum, numberOf_add (by omega) (by omega)]
  · right
    obtain ⟨e, rfl⟩ : ∃ e, exponent = e + 1 := Nat.exists_eq_succ_of_ne_zero (by omega)
    refine ⟨e, rfl, by omega, ?_⟩
    have hsum : lower = e * 2 ^ 52 + (2 ^ 53 - 1) := by omega
    have hcast : ((2 ^ 53 - 1 : Nat) : ℚ) = 2 ^ 53 - 1 := by norm_num
    rw [hsum, numberOf_add (by omega) (by omega), hcast]

/-- Magnitude bits consist of a significand of at most 53 bits and an exponent, which is zero for a
significand of fewer bits. -/
theorem exists_significand (k : Nat) :
    ∃ exponent significand, (exponent = 0 ∨ 2 ^ 52 ≤ significand) ∧ significand < 2 ^ 53 ∧
      exponent * 2 ^ 52 + significand = k := by
  obtain hsmall | hlarge := Nat.lt_or_ge k (2 ^ 52)
  · exact ⟨0, k, .inl rfl, by omega, by omega⟩
  · exact ⟨k / 2 ^ 52 - 1, 2 ^ 52 + k % 2 ^ 52, by omega, by omega, by omega⟩

/-- Between neighbours with a significand of 53 bits the greater one is less than 2⁻⁵² of itself
away from the lesser one. -/
theorem numberOf_succ_sub_lt {j : Nat} (h : 2 ^ 52 ≤ j) :
    2 ^ 52 * (numberOf (j + 1) - numberOf j) < numberOf (j + 1) := by
  obtain ⟨exponent, significand, hlow, hhigh, hj⟩ := exists_significand (j + 1)
  rw [← hj, numberOf_add hlow hhigh.le]
  have hplace : (0 : ℚ) < 2 ^ ((exponent : Int) + minExponent) := by positivity
  obtain ⟨r, rfl, hleast, hj'⟩ | ⟨e, rfl, rfl, hj'⟩ := numberOf_add_pred hlow hhigh.le hj
  · have hless : 2 ^ 52 < r + 1 := by omega
    have hscaled : (2 ^ 52 * 2 ^ ((exponent : Int) + minExponent) : ℚ) <
        (r + 1 : Nat) * 2 ^ ((exponent : Int) + minExponent) :=
      mul_lt_mul_of_pos_right (by exact_mod_cast hless) hplace
    rw [hj']
    push_cast at hscaled ⊢
    linarith
  · rw [two_zpow_succ_add] at hplace ⊢
    rw [hj']
    push_cast
    linarith

/-- The doubles before and after one are more than 2 · 10⁻¹⁶ of it away from each other. -/
theorem two_mul_numberOf_lt (j : Nat) :
    2 * numberOf (j + 1) < 10 ^ 16 * (numberOf (j + 2) - numberOf j) := by
  obtain ⟨exponent, significand, hlow, hhigh, hj⟩ := exists_significand (j + 1)
  have hnext := (le_numberOf_add_succ hlow hhigh.le).2 hhigh
  rw [← Nat.add_assoc j 1 1, ← hj, hnext, numberOf_add hlow hhigh.le]
  have hplace : (0 : ℚ) < 2 ^ ((exponent : Int) + minExponent) := by positivity
  obtain ⟨r, rfl, -, hj'⟩ | ⟨e, rfl, rfl, hj'⟩ := numberOf_add_pred hlow hhigh.le hj
  · have hless : (r + 1 : ℚ) < 2 ^ 53 := by exact_mod_cast hhigh
    have hscaled := mul_lt_mul_of_pos_right hless hplace
    rw [hj']
    push_cast
    linarith
  · rw [two_zpow_succ_add] at hplace ⊢
    rw [hj']
    push_cast
    linarith

theorem numberOf_one : numberOf (1022 * 2 ^ 52 + 2 ^ 52) = 1 := by
  rw [numberOf_add (.inr le_rfl) (by decide), minExponent]
  norm_num

theorem numberOf_le_of_lt_one {k : Nat} (h : numberOf k < 1) : numberOf k ≤ 1 - 1 / 2 ^ 53 := by
  have hpred : numberOf (1021 * 2 ^ 52 + (2 ^ 53 - 1)) = 1 - 1 / 2 ^ 53 := by
    rw [numberOf_add (.inr (by decide)) (by decide), minExponent]
    norm_num
  rw [← numberOf_one, numberOf_strictMono.lt_iff_lt] at h
  rw [← hpred]
  exact numberOf_strictMono.monotone (by omega)

/-- A quotient of 53 bits, or of fewer at the least exponent, is rounded to the magnitude of its
exponent and its rounded significand. -/
theorem nearest_add_divideToEven {exponent n d : Nat} (hd : 0 < d) (hhigh : n ≤ 2 ^ 53 * d)
    (hlow : exponent = 0 ∨ 2 ^ 52 * d ≤ n) :
    Nearest (n / d * 2 ^ ((exponent : Int) + minExponent))
      (exponent * 2 ^ 52 + divideToEven n d) := by
  have hrhigh := divideToEven_le hd hhigh
  have hrlow := hlow.imp_right (le_divideToEven hd)
  obtain ⟨habove, hbelow⟩ := divideToEven_within_half n hd
  have hx : exponent = 0 ∨ (2 ^ 52 : ℚ) ≤ n / d := by
    refine hlow.imp_right fun h => ?_
    rw [le_div_iff₀ (by exact_mod_cast hd)]
    exact_mod_cast h
  have hx' : (n / d : ℚ) ≤ 2 ^ 53 := by
    rw [div_le_iff₀ (by exact_mod_cast hd)]
    exact_mod_cast hhigh
  generalize (n / d : ℚ) = x at habove hbelow hx hx' ⊢
  generalize divideToEven n d = r at habove hbelow hrlow hrhigh ⊢
  have hparity : (exponent * 2 ^ 52 + r) % 2 = r % 2 := by omega
  have hplace : (0 : ℚ) < 2 ^ ((exponent : Int) + minExponent) := by positivity
  constructor
  · rw [numberOf_add hrlow hrhigh, hparity]
    obtain ⟨hle, heq⟩ := le_numberOf_add_succ hrlow hrhigh
    refine habove.imp (fun h => ?_) fun h => ⟨?_, h.2⟩
    · nlinarith
    · -- on a tie the significand is not full
      have hless : r < 2 ^ 53 := by
        have hrat : (2 * r + 1 : ℚ) ≤ 2 * 2 ^ 53 := by linarith [h.1]
        have hnat : 2 * r + 1 ≤ 2 * 2 ^ 53 := by exact_mod_cast hrat
        omega
      rw [heq hless]
      linear_combination (2 ^ ((exponent : Int) + minExponent) : ℚ) * h.1
  · intro lower hlower
    rw [numberOf_add hrlow hrhigh, hparity]
    obtain ⟨r, rfl, -, hlow'⟩ | ⟨e, rfl, rfl, hlow'⟩ := numberOf_add_pred hrlow hrhigh hlower
    · rw [hlow']
      push_cast at hbelow ⊢
      refine hbelow.imp (fun h => ?_) fun h => ⟨?_, h.2⟩
      · nlinarith
      · linear_combination (2 ^ ((exponent : Int) + minExponent) : ℚ) * h.1
    · left
      have hfull : (2 ^ 52 * 2 ^ (((e + 1 : Nat) : Int) + minExponent) : ℚ) ≤
          x * 2 ^ (((e + 1 : Nat) : Int) + minExponent) :=
        mul_le_mul_of_nonneg_right (hx.resolve_left (Nat.succ_ne_zero e)) hplace.le
      rw [two_zpow_succ_add] at hplace hfull ⊢
      rw [hlow']
      push_cast
      linarith

/-- The rounded magnitude of a quotient is the nearest one to it. -/
theorem nearest_roundedMagnitude {n d : Nat} (hn : 0 < n) (hd : 0 < d) :
    Nearest (n / d) (roundedMagnitude n d) := by
  obtain ⟨exponent, hexponent⟩ : ∃ exponent : Nat,
      roundingExponent n d = exponent + minExponent :=
    (Int.le.dest (le_max_left minExponent (exponentOf n d))).imp fun _ h =>
      h.symm.trans (Int.add_comm _ _)
  have hsub : (roundingExponent n d - minExponent).toNat = exponent := by omega
  have hsd := scale_snd_pos n hd (roundingExponent n d)
  have hsdrat : (0 : ℚ) < (scale n d (roundingExponent n d)).2 := by exact_mod_cast hsd
  have hvalue : (n / d : ℚ) = (scale n d (roundingExponent n d)).1 /
      (scale n d (roundingExponent n d)).2 * 2 ^ ((exponent : Int) + minExponent) := by
    rw [scale_div, mul_assoc, hexponent, ← zpow_add₀ two_ne_zero, neg_add_cancel, zpow_zero,
      mul_one]
  obtain ⟨hlow, hhigh⟩ := exponentOf_spec hn hd
  have hpower : (0 : ℚ) < 2 ^ (-roundingExponent n d) := by positivity
  rw [roundedMagnitude, hsub, hvalue]
  refine nearest_add_divideToEven hsd ?_ ?_
  · have hquotient : ((scale n d (roundingExponent n d)).1 /
        (scale n d (roundingExponent n d)).2 : ℚ) ≤ 2 ^ 53 := by
      rw [scale_div]
      calc (n / d * 2 ^ (-roundingExponent n d) : ℚ)
          ≤ 2 ^ (exponentOf n d + 53) * 2 ^ (-roundingExponent n d) := by gcongr
        _ = 2 ^ (exponentOf n d - roundingExponent n d + 53) := by
          rw [← zpow_add₀ two_ne_zero]
          congr 1
          ring
        _ ≤ 2 ^ (53 : Int) := by
          have hle : exponentOf n d ≤ roundingExponent n d := le_max_right _ _
          exact zpow_le_zpow_right₀ one_le_two (by omega)
    rw [div_le_iff₀ hsdrat] at hquotient
    exact_mod_cast hquotient
  · -- above the least exponent the quotient has 53 bits
    refine (Nat.eq_zero_or_pos exponent).imp_right fun hpos => ?_
    have hexact : roundingExponent n d = exponentOf n d := by
      rw [roundingExponent] at hexponent ⊢
      omega
    have hquotient : (2 ^ 52 : ℚ) ≤ (scale n d (roundingExponent n d)).1 /
        (scale n d (roundingExponent n d)).2 := by
      rw [scale_div]
      calc (2 ^ 52 : ℚ) = 2 ^ (exponentOf n d + 52) * 2 ^ (-roundingExponent n d) := by
            rw [← zpow_add₀ two_ne_zero, hexact, ← zpow_natCast]
            congr 1
            push_cast
            ring
        _ ≤ n / d * 2 ^ (-roundingExponent n d) := by gcongr
    rw [le_div_iff₀ hsdrat] at hquotient
    exact_mod_cast hquotient

/-- A quotient becomes the nearest double, or infinity if that is beyond the finite ones. -/
theorem exists_nearest_ofRatio (negative : Bool) (n : Nat) {d : Nat} (hd : 0 < d) :
    ∃ k, Nearest (n / d) k ∧
      ofRatio negative n d = ofMagnitude negative (min k infinityMagnitude) := by
  obtain rfl | hn := Nat.eq_zero_or_pos n
  · refine ⟨0, ?_, rfl⟩
    rw [Nat.cast_zero, zero_div, ← numberOf_zero]
    exact nearest_numberOf 0
  · refine ⟨roundedMagnitude n d, nearest_roundedMagnitude hn hd, ?_⟩
    rw [ofRatio, if_neg hn.ne', roundedMagnitude, ← Nat.shiftLeft_eq]
    rfl

/-! ### Doubles of magnitudes -/

section

variable {negative : Bool} {k : Nat}

theorem magnitude_ofMagnitude (h : k < 2 ^ 63) : (ofMagnitude negative k).magnitude = k := by
  have hbits : (ofMagnitude negative k).bits.toNat =
      ((if negative then 2 ^ 63 else 0) + k) % 2 ^ 64 := by
    simp [ofMagnitude, UInt64.toNat_ofNat']
  rw [magnitude, hbits]
  cases negative <;> simp <;> omega

theorem isNegative_ofMagnitude (h : k < 2 ^ 63) :
    (ofMagnitude negative k).isNegative = negative := by
  have hbits : (ofMagnitude negative k).bits.toNat =
      ((if negative then 2 ^ 63 else 0) + k) % 2 ^ 64 := by
    simp [ofMagnitude, UInt64.toNat_ofNat']
  rw [isNegative, hbits]
  cases negative <;> simp <;> omega

/-- The number of finite magnitude bits with a sign. -/
theorem number?_ofMagnitude (h : k < infinityMagnitude) :
    (ofMagnitude negative k).number? =
      some ((if negative then -1 else 1) * numberOf k) := by
  have hbits : k < 2 ^ 63 := h.trans (by decide)
  have hfinite : (ofMagnitude negative k).isFinite = true := by
    rw [isFinite, magnitude_ofMagnitude hbits]
    exact decide_eq_true h
  rw [number?_of_isFinite hfinite, scaled, magnitude_ofMagnitude hbits,
    isNegative_ofMagnitude hbits, numberOf]
  cases negative <;> simp

end

/-! ### Whole numbers -/

/-- A whole number of at most 53 bits is a double. -/
theorem exists_numberOf_eq_natCast {n : Nat} (h : n < 2 ^ 53) :
    ∃ k < infinityMagnitude, numberOf k = n := by
  obtain rfl | hpos := Nat.eq_zero_or_pos n
  · exact ⟨0, by decide, by rw [numberOf_zero, Nat.cast_zero]⟩
  · have hlow := Nat.log2_self_le hpos.ne'
    have hhigh := @Nat.lt_log2_self n
    have hlog : n.log2 < 53 := (Nat.log2_lt hpos.ne').2 h
    -- the number is brought to 53 bits, and the exponent makes up for it
    obtain ⟨up, hup⟩ : ∃ up, n.log2 + up = 52 := ⟨52 - n.log2, by omega⟩
    have hle : n * 2 ^ up ≤ 2 ^ 53 := by
      calc n * 2 ^ up ≤ 2 ^ (n.log2 + 1) * 2 ^ up := Nat.mul_le_mul_right _ hhigh.le
        _ = 2 ^ 53 := by rw [← pow_add, show n.log2 + 1 + up = 53 by omega]
    have hge : 2 ^ 52 ≤ n * 2 ^ up := by
      calc 2 ^ 52 = 2 ^ n.log2 * 2 ^ up := by rw [← pow_add, hup]
        _ ≤ n * 2 ^ up := Nat.mul_le_mul_right _ hlow
    have hplace : (2 : ℚ) ^ (((1022 + n.log2 : Nat) : Int) + minExponent) = 1 / 2 ^ up := by
      rw [← zpow_natCast, one_div, ← zpow_neg]
      congr 1
      rw [minExponent]
      omega
    refine ⟨(1022 + n.log2) * 2 ^ 52 + n * 2 ^ up, ?_, ?_⟩
    · rw [show infinityMagnitude = 2047 * 2 ^ 52 by decide]
      omega
    · have hne : (2 ^ up : ℚ) ≠ 0 := by positivity
      rw [numberOf_add (.inr hge) hle, hplace]
      push_cast
      field_simp

/-- A whole number of at most 53 bits is not rounded. -/
theorem number?_ofNat {n : Nat} (h : n < 2 ^ 53) : (ofNat n).number? = some (n : ℚ) := by
  obtain ⟨k, hfinite, hk⟩ := exists_numberOf_eq_natCast h
  obtain ⟨j, hj, hround⟩ := exists_nearest_ofRatio false n one_pos
  rw [Nat.cast_one, div_one, ← hk] at hj
  obtain rfl := hj.unique (nearest_numberOf k)
  rw [ofNat, hround, min_eq_left hfinite.le, number?_ofMagnitude hfinite, hk]
  simp

theorem isNegative_ofNat (n : Nat) : (ofNat n).isNegative = false := by
  obtain ⟨k, -, hround⟩ := exists_nearest_ofRatio false n one_pos
  have hbits : min k infinityMagnitude < 2 ^ 63 := (min_le_right _ _).trans_lt (by decide)
  rw [ofNat, hround, isNegative_ofMagnitude hbits]

/-! ### Products, quotients and whole parts -/

variable {x y : Binary64} {p q : ℚ}

theorem value_of_number? (h : x.number? = some q) :
    ∃ significand exponent, x.value = .finite x.isNegative significand exponent ∧
      q = (if x.isNegative then -1 else 1) * significand * 2 ^ exponent := by
  rw [number?] at h
  have hsign : ∀ negative significand exponent,
      x.value = .finite negative significand exponent → negative = x.isNegative := by
    intro negative significand exponent hvalue
    rw [value] at hvalue
    split at hvalue
    · cases hvalue
    · split at hvalue
      · cases hvalue
      · dsimp only at hvalue
        split at hvalue <;> cases hvalue <;> rfl
  cases hvalue : x.value with
  | nan => rw [hvalue] at h; cases h
  | infinite negative => rw [hvalue] at h; cases h
  | finite negative significand exponent =>
    rw [hvalue] at h
    cases hsign _ _ _ hvalue
    exact ⟨significand, exponent, rfl, (Option.some.inj h).symm⟩

theorem isNegative_of_pos (h : x.number? = some q) (hpos : 0 < q) : x.isNegative = false := by
  obtain ⟨m, e, -, rfl⟩ := value_of_number? h
  refine Bool.eq_false_of_not_eq_true fun hnegative => hpos.not_ge ?_
  have hmagnitude : (0 : ℚ) ≤ m * 2 ^ e := by positivity
  rw [if_pos hnegative]
  linarith

/-- A double below one is at least 2⁻⁵³ below it. -/
theorem le_of_number?_lt_one (h : x.number? = some q) (hlt : q < 1) : q ≤ 1 - 1 / 2 ^ 53 := by
  obtain ⟨-, rfl⟩ := number?_eq_some_iff.1 h
  rw [scaled] at hlt ⊢
  split at hlt
  · rename_i hnegative
    have hmagnitude : (0 : ℚ) ≤ units x.magnitude * 2 ^ minExponent := by positivity
    rw [if_pos hnegative]
    push_cast
    linarith
  · rename_i hpositive
    rw [if_neg hpositive, Int.cast_natCast]
    rw [Int.cast_natCast] at hlt
    exact numberOf_le_of_lt_one hlt

theorem shiftLeft_div_shiftLeft (m : Nat) (e : Int) :
    ((m <<< e.toNat : Nat) / (1 <<< (-e).toNat : Nat) : ℚ) = m * 2 ^ e := by
  have h := scale_div m 1 (-e)
  rw [scale, neg_neg, Nat.cast_one, div_one] at h
  exact h

/-- The magnitude of the number of a finite double. -/
theorem exists_abs_eq (h : x.number? = some q) :
    ∃ significand exponent, x.value = .finite x.isNegative significand exponent ∧
      |q| = significand * 2 ^ exponent := by
  obtain ⟨m, e, hvalue, rfl⟩ := value_of_number? h
  refine ⟨m, e, hvalue, ?_⟩
  have hmagnitude : (0 : ℚ) ≤ m * 2 ^ e := by positivity
  rw [mul_assoc, abs_mul, abs_of_nonneg hmagnitude]
  cases x.isNegative <;> simp

/-- The product of two finite doubles is the nearest one to the product of their numbers, or
infinity if that is beyond the finite ones. -/
theorem exists_nearest_mul (hx : x.number? = some p) (hy : y.number? = some q) :
    ∃ k, Nearest |p * q| k ∧
      x.mul y = ofMagnitude (x.isNegative != y.isNegative) (min k infinityMagnitude) := by
  obtain ⟨m, e, hvalue, hp⟩ := exists_abs_eq hx
  obtain ⟨n, f, hvalue', hq⟩ := exists_abs_eq hy
  have hd : 0 < 1 <<< (-(e + f)).toNat := by
    rw [Nat.one_shiftLeft]
    exact Nat.two_pow_pos _
  obtain ⟨k, hnearest, hk⟩ := exists_nearest_ofRatio (x.isNegative != y.isNegative)
    ((m * n) <<< (e + f).toNat) hd
  refine ⟨k, ?_, ?_⟩
  · have habs : |p * q| = (m * n : Nat) * 2 ^ (e + f) := by
      rw [abs_mul, hp, hq, zpow_add₀ two_ne_zero]
      push_cast
      ring
    rw [habs, ← shiftLeft_div_shiftLeft]
    exact hnearest
  · rw [mul, hvalue, hvalue']
    exact hk

/-- The quotient of two finite doubles is the nearest one to the quotient of their numbers, or
infinity if that is beyond the finite ones. -/
theorem exists_nearest_div (hx : x.number? = some p) (hy : y.number? = some q) (hne : q ≠ 0) :
    ∃ k, Nearest |p / q| k ∧
      x.div y = ofMagnitude (x.isNegative != y.isNegative) (min k infinityMagnitude) := by
  obtain ⟨m, e, hvalue, hp⟩ := exists_abs_eq hx
  obtain ⟨n, f, hvalue', hq⟩ := exists_abs_eq hy
  have hn : 0 < n := by
    refine Nat.pos_of_ne_zero ?_
    rintro rfl
    rw [Nat.cast_zero, zero_mul, abs_eq_zero] at hq
    exact hne hq
  obtain ⟨k, hnearest, hk⟩ := exists_nearest_ofRatio (x.isNegative != y.isNegative)
    (scale m n (f - e)).1 (scale_snd_pos m hn (f - e))
  refine ⟨k, ?_, ?_⟩
  · have habs : |p / q| = m / n * 2 ^ (-(f - e)) := by
      rw [abs_div, hp, hq, neg_sub, zpow_sub₀ two_ne_zero, mul_div_mul_comm]
    rw [habs, ← scale_div]
    exact hnearest
  · rw [div, hvalue, hvalue']
    dsimp only
    rw [if_neg hn.ne']
    exact hk

/-- The whole part of a double is that of its number, within the 64-bit numbers. -/
theorem floorWord_eq (h : x.number? = some q) : x.floorWord = min maxWord ⌊q⌋₊ := by
  obtain ⟨m, e, hvalue, rfl⟩ := value_of_number? h
  have hfloor : ⌊(m * 2 ^ e : ℚ)⌋₊ = (m <<< e.toNat) >>> (-e).toNat := by
    rw [← shiftLeft_div_shiftLeft, Nat.floor_div_eq_div, Nat.shiftRight_eq_div_pow,
      Nat.one_shiftLeft]
  rw [floorWord, hvalue]
  dsimp only
  split
  · have hnonpos : (-1 * m * 2 ^ e : ℚ) ≤ 0 := by
      have hpos : (0 : ℚ) ≤ m * 2 ^ e := by positivity
      linarith
    rw [Nat.floor_of_nonpos hnonpos]
    rfl
  · rw [one_mul, hfloor]

/-- The nearest whole number to a double is that to its number, within the 64-bit numbers. -/
theorem roundWord_eq (h : x.number? = some q) : x.roundWord = min maxWord ⌊q + 1 / 2⌋₊ := by
  obtain ⟨m, e, hvalue, rfl⟩ := value_of_number? h
  have hfloor : ⌊(m * 2 ^ e + 1 / 2 : ℚ)⌋₊ =
      (m <<< (e.toNat + 1) + 1 <<< (-e).toNat) >>> ((-e).toNat + 1) := by
    have hshift := shiftLeft_div_shiftLeft m e
    have hhalf : (m * 2 ^ e + 1 / 2 : ℚ) =
        (m <<< (e.toNat + 1) + 1 <<< (-e).toNat : Nat) / (1 <<< ((-e).toNat + 1) : Nat) := by
      have hne : ((1 <<< (-e).toNat : Nat) : ℚ) ≠ 0 := by
        rw [Nat.one_shiftLeft]
        positivity
      rw [← hshift, Nat.shiftLeft_succ, Nat.shiftLeft_succ]
      push_cast
      field_simp
    rw [hhalf, Nat.floor_div_eq_div, Nat.shiftRight_eq_div_pow, Nat.one_shiftLeft (_ + 1)]
  rw [roundWord, hvalue]
  dsimp only
  split
  -- of a negative number, not even the half that is added leaves a whole part
  · have hless : (-1 * m * 2 ^ e + 1 / 2 : ℚ) < 1 := by
      have hpos : (0 : ℚ) ≤ m * 2 ^ e := by positivity
      linarith
    rw [Nat.floor_eq_zero.2 hless, Nat.min_zero]
  · rw [one_mul, hfloor]

/-- A product that reaches a whole number of at most 53 bits is not rounded below it. -/
theorem le_roundWord_mul {n factor : Nat} (hx : x.number? = some q) (hpos : 0 < q)
    (hfactor : factor < 2 ^ 53) (hn : n < 2 ^ 53) (hle : n ≤ q * factor) :
    n ≤ (x.mul (ofNat factor)).roundWord := by
  obtain ⟨k, hnearest, hk⟩ := exists_nearest_mul hx (number?_ofNat hfactor)
  rw [isNegative_of_pos hx hpos, isNegative_ofNat] at hk
  have hword : n ≤ maxWord := hn.le.trans (by decide)
  rw [hk]
  -- a product beyond the finite doubles is infinite, and rounded to the greatest word
  rcases lt_or_ge k infinityMagnitude with hfinite | hinfinite
  · obtain ⟨j, -, hj⟩ := exists_numberOf_eq_natCast hn
    rw [abs_of_nonneg (by positivity)] at hnearest
    have hjk : j ≤ k := (nearest_numberOf j).le hnearest (hj ▸ hle)
    have hnk : (n : ℚ) ≤ numberOf k := hj ▸ numberOf_strictMono.monotone hjk
    rw [min_eq_left hfinite.le, roundWord_eq (number?_ofMagnitude hfinite)]
    refine Nat.le_min.2 ⟨hword, Nat.le_floor ?_⟩
    rw [bne_self_eq_false, if_neg Bool.false_ne_true, one_mul]
    linarith
  · rw [min_eq_right hinfinite]
    exact hword

end FieldVault.Binary64
