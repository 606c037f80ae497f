import FieldVault.Proofs.Binary64.Rounding
import FieldVault.Wipe.Workers

/-!
# How many workers a flush has

There is always a worker. There are never more than cores, unless the number of cores is rounded up
to the next double and the share is one or more (`workers_within_cores_unless_rounded_up`): a share
below one makes the product at least as much smaller as the rounding made the number of cores
greater.
-/

set_option autoImplicit false

namespace FieldVault.Wipe

open Binary64

variable {cores : Nat}

/-! ### Counts as doubles -/

/-- The distance between the doubles around a count. -/
def spacing (cores : Nat) : Nat := 2 ^ (cores.log2 - 52)

/-- The count that is nearest to a count among the doubles. -/
def roundedCores (cores : Nat) : Nat := divideToEven cores (spacing cores) * spacing cores

/-- A count is rounded up if it is past the middle between two doubles, or in the middle and behind
an odd one. -/
def RoundsUp (cores : Nat) : Prop :=
  spacing cores < 2 * (cores % spacing cores) ∨
    spacing cores = 2 * (cores % spacing cores) ∧ cores / spacing cores % 2 = 1

instance (cores : Nat) : Decidable (RoundsUp cores) := inferInstanceAs (Decidable (_ ∨ _ ∧ _))

theorem spacing_pos (cores : Nat) : 0 < spacing cores := Nat.two_pow_pos _

/-- Up to 53 bits every count is a double. -/
theorem spacing_eq_one (h : cores < 2 ^ 53) : spacing cores = 1 := by
  have hlog : cores.log2 < 53 := by
    obtain rfl | hpos := Nat.eq_zero_or_pos cores
    · decide
    · exact (Nat.log2_lt hpos.ne').2 h
  rw [spacing, show cores.log2 - 52 = 0 by omega, pow_zero]

theorem roundsUp_iff : RoundsUp cores ↔ cores < roundedCores cores := by
  have hcores := Nat.div_add_mod' cores (spacing cores)
  have hrest := Nat.mod_lt cores (spacing_pos cores)
  rw [RoundsUp, roundedCores, divideToEven]
  generalize cores / spacing cores = q at *
  generalize cores % spacing cores = r at *
  generalize spacing cores = s at *
  have hsucc : (q + 1) * s = q * s + s := Nat.succ_mul q s
  split
  · omega
  · split
    · rw [hsucc]
      omega
    · obtain h | h : q % 2 = 0 ∨ q % 2 = 1 := by omega
      · rw [h, Nat.add_zero]
        omega
      · rw [h, hsucc]
        omega

theorem one_le_roundedCores (hpos : 0 < cores) : 1 ≤ roundedCores cores := by
  have hspacing : 1 * spacing cores ≤ cores := by
    rw [Nat.one_mul]
    exact (Nat.pow_le_pow_right two_pos (Nat.sub_le _ _)).trans (Nat.log2_self_le hpos.ne')
  exact Nat.mul_pos (le_divideToEven (spacing_pos cores) hspacing) (spacing_pos cores)

theorem not_roundsUp_of_le (h : cores ≤ 2 ^ 53) : ¬ RoundsUp cores := by
  obtain hless | rfl := Nat.lt_or_eq_of_le h
  · rw [RoundsUp, spacing_eq_one hless, Nat.mod_one]
    omega
  · decide

theorem divideToEven_one (n : Nat) : divideToEven n 1 = n :=
  le_antisymm (divideToEven_le one_pos (Nat.mul_one n).ge)
    (le_divideToEven one_pos (Nat.mul_one n).le)

/-- The double nearest to a count, as magnitude bits. -/
theorem exists_nearest_cores (hpos : 0 < cores) :
    ∃ k, Nearest cores k ∧ numberOf k = roundedCores cores := by
  have hlow := Nat.log2_self_le hpos.ne'
  have hhigh := @Nat.lt_log2_self cores
  -- a small count is brought to 53 bits, a great one is cut down to them
  obtain ⟨up, down, hlog, hone⟩ : ∃ up down, cores.log2 + up = 52 + down ∧ (up = 0 ∨ down = 0) :=
    ⟨52 - cores.log2, cores.log2 - 52, by omega, by omega⟩
  have hspacing : spacing cores = 2 ^ down := by
    rw [spacing]
    congr 1
    omega
  have hplace :
      (2 : ℚ) ^ (((1022 + cores.log2 : Nat) : Int) + minExponent) = 2 ^ down / 2 ^ up := by
    rw [← zpow_natCast, ← zpow_natCast, ← zpow_sub₀ two_ne_zero]
    congr 1
    rw [minExponent]
    omega
  have hup : (2 ^ up : ℚ) ≠ 0 := by positivity
  have hdown : (2 ^ down : ℚ) ≠ 0 := by positivity
  have hvalue : (cores : ℚ) = (cores * 2 ^ up : Nat) / (2 ^ down : Nat) *
      2 ^ (((1022 + cores.log2 : Nat) : Int) + minExponent) := by
    rw [hplace]
    push_cast
    field_simp
  have hle : cores * 2 ^ up ≤ 2 ^ 53 * 2 ^ down := by
    calc cores * 2 ^ up ≤ 2 ^ (cores.log2 + 1) * 2 ^ up := Nat.mul_le_mul_right _ hhigh.le
      _ = 2 ^ 53 * 2 ^ down := by
        rw [← pow_add, ← pow_add]
        congr 1
        omega
  have hge : 2 ^ 52 * 2 ^ down ≤ cores * 2 ^ up := by
    calc 2 ^ 52 * 2 ^ down = 2 ^ cores.log2 * 2 ^ up := by
          rw [← pow_add, ← pow_add, hlog]
      _ ≤ cores * 2 ^ up := Nat.mul_le_mul_right _ hlow
  refine ⟨(1022 + cores.log2) * 2 ^ 52 + divideToEven (cores * 2 ^ up) (2 ^ down), ?_, ?_⟩
  · rw [hvalue]
    exact nearest_add_divideToEven (Nat.two_pow_pos _) hle (.inr hge)
  · rw [numberOf_add (.inr (le_divideToEven (Nat.two_pow_pos _) hge))
      (divideToEven_le (Nat.two_pow_pos _) hle), roundedCores, hspacing, hplace]
    rcases hone with rfl | rfl
    · simp
    · simp [divideToEven_one]

/-- Between one and 64 bits, counts are far from both ends of the doubles. -/
theorem magnitude_bounds_of_cores {k : Nat} (hpos : 0 < cores) (hword : cores < 2 ^ 64)
    (h : Nearest cores k) : 2 ^ 52 < k ∧ k < infinityMagnitude := by
  have hlimit : numberOf (1086 * 2 ^ 52 + 2 ^ 52) = 2 ^ 64 := by
    rw [numberOf_add (.inr le_rfl) (by decide), minExponent]
    norm_num
  have hlow : 1022 * 2 ^ 52 + 2 ^ 52 ≤ k := by
    refine (nearest_numberOf _).le h ?_
    rw [numberOf_one]
    exact_mod_cast hpos
  have hhigh : k ≤ 1086 * 2 ^ 52 + 2 ^ 52 := by
    refine h.le_of_le_numberOf ?_
    rw [hlimit]
    exact_mod_cast hword.le
  constructor
  · omega
  · exact lt_of_le_of_lt hhigh (by decide)

/-- A count becomes the double that it is rounded to. -/
theorem ofNat_eq {k : Nat} (hpos : 0 < cores) (hword : cores < 2 ^ 64) (h : Nearest cores k) :
    Binary64.ofNat cores = ofMagnitude false k := by
  obtain ⟨j, hj, hrounded⟩ := exists_nearest_ofRatio false cores Nat.one_pos
  rw [Nat.cast_one, div_one] at hj
  obtain rfl := hj.unique h
  rw [Binary64.ofNat, hrounded, min_eq_left (magnitude_bounds_of_cores hpos hword h).2.le]

/-! ### Shares -/

/-- A share of one or more. -/
def IsFull (share : Binary64) : Prop := ∃ q, share.number? = some q ∧ 1 ≤ q

/-- The share that is used is a number between zero and one, and one only for a full share. -/
theorem number?_effectiveShare (share : Binary64) :
    ∃ p, (effectiveShare share).number? = some p ∧ 0 ≤ p ∧ p ≤ 1 ∧ (p = 1 ↔ IsFull share) := by
  rw [effectiveShare]
  by_cases hfinite : share.isFinite = true
  · obtain ⟨q, hq⟩ := isFinite_iff.1 hfinite
    have hfull : IsFull share ↔ 1 ≤ q := by simp [IsFull, hq]
    simp only [hfinite, Bool.not_true, Bool.false_eq_true, if_false, hfull,
      lt_iff hq number?_zero, lt_iff number?_one hq]
    split
    · rename_i hneg
      refine ⟨0, number?_zero, le_rfl, zero_le_one, ?_⟩
      simp [(hneg.trans one_pos).not_ge]
    · rename_i hnonneg
      split
      · rename_i hgt
        exact ⟨1, number?_one, zero_le_one, le_rfl, iff_of_true rfl hgt.le⟩
      · rename_i hle
        exact ⟨q, hq, not_lt.1 hnonneg, not_lt.1 hle, ⟨Eq.ge, (not_lt.1 hle).antisymm⟩⟩
  · have hnone : ¬ IsFull share := by
      rintro ⟨q, hq, -⟩
      exact hfinite (isFinite_of_number? hq)
    have hdefault : defaultShare.number? = some (6124895493223875 * 2 ^ (-54 : Int)) := by
      have hvalue : defaultShare.value = .finite false 6124895493223875 (-54) := by decide
      rw [number?, hvalue]
      norm_num
    rw [if_pos (by simpa using hfinite)]
    refine ⟨_, hdefault, by positivity, by norm_num, ?_⟩
    refine iff_of_false (by norm_num) hnone

/-! ### Products with a share -/

section

variable {p : ℚ}

/-- The product is rounded to at most the rounded count. -/
theorem magnitude_product_le {j k : Nat} (hj : numberOf j = roundedCores cores)
    (hk : Nearest (roundedCores cores * p) k) (hp : p ≤ 1) : k ≤ j := by
  refine hk.le_of_le_numberOf ?_
  rw [hj]
  exact mul_le_of_le_one_right (Nat.cast_nonneg _) hp

/-- The number of workers is the whole part of a rounded product, unless the share is a zero with
the negative sign. -/
theorem exists_product (share : Binary64) (hpos : 0 < cores) (hword : cores < 2 ^ 64)
    (hp : (effectiveShare share).number? = some p) (hnonneg : 0 ≤ p) (hle : p ≤ 1) :
    ∃ k, Nearest (roundedCores cores * p) k ∧
      workerCount share cores ≤ max 1 (min maxWord ⌊numberOf k⌋₊) ∧
      (0 < p → workerCount share cores = max 1 (min maxWord ⌊numberOf k⌋₊)) := by
  obtain ⟨j, hj, hrounded⟩ := exists_nearest_cores hpos
  have hfinite := (magnitude_bounds_of_cores hpos hword hj).2
  have hcores : (Binary64.ofNat cores).number? = some (roundedCores cores : ℚ) := by
    rw [ofNat_eq hpos hword hj, number?_ofMagnitude hfinite, hrounded, if_neg Bool.false_ne_true,
      one_mul]
  obtain ⟨k, hk, hproduct⟩ := exists_nearest_mul hcores hp
  rw [abs_of_nonneg (by positivity)] at hk
  have hkj : k ≤ j := magnitude_product_le hrounded hk hle
  rw [min_eq_left (hkj.trans hfinite.le)] at hproduct
  have hfloor (negative : Bool) : (ofMagnitude negative k).floorWord =
      min maxWord ⌊(if negative then -1 else 1) * numberOf k⌋₊ :=
    floorWord_eq (number?_ofMagnitude (hkj.trans_lt hfinite))
  refine ⟨k, hk, ?_, ?_⟩
  · rw [workerCount, hproduct, hfloor]
    refine max_le_max le_rfl (min_le_min le_rfl (Nat.floor_mono ?_))
    have hmagnitude := numberOf_nonneg k
    split <;> linarith
  · intro hpositive
    have hsign :
        ((Binary64.ofNat cores).isNegative != (effectiveShare share).isNegative) = false := by
      rw [isNegative_of_pos hp hpositive, ofNat_eq hpos hword hj,
        isNegative_ofMagnitude (hfinite.trans (by decide))]
      rfl
    rw [workerCount, hproduct, hfloor, hsign, if_neg Bool.false_ne_true, one_mul]

/-- A share below one takes more off a count than rounding it up has added. -/
theorem numberOf_product_lt {k : Nat} (hpos : 0 < cores) (hword : cores < 2 ^ 64)
    (hup : RoundsUp cores) (hk : Nearest (roundedCores cores * p) k) (hp : p ≤ 1 - 1 / 2 ^ 53) :
    numberOf k < cores := by
  obtain ⟨i, hi, hrounded⟩ := exists_nearest_cores hpos
  have hlarge := (magnitude_bounds_of_cores hpos hword hi).1
  obtain ⟨j, rfl⟩ : ∃ j, i = j + 1 := Nat.exists_eq_succ_of_ne_zero (by omega)
  have hgap := numberOf_succ_sub_lt (j := j) (by omega)
  have hgreater : (cores : ℚ) < numberOf (j + 1) := by
    rw [hrounded]
    exact_mod_cast roundsUp_iff.1 hup
  have hless : numberOf j < cores := by linarith [hi.le_two_mul]
  have hkj : k ≤ j := by
    refine hk.le_of_two_mul_lt ?_
    have hproduct : (roundedCores cores * p : ℚ) ≤
        roundedCores cores * (1 - 1 / 2 ^ 53) := by gcongr
    rw [← hrounded] at hproduct ⊢
    linarith
  exact (numberOf_strictMono.monotone hkj).trans_lt hless

end

/-! ### The number of workers -/

/-- There is always a worker. There are more workers than cores exactly for a full share and a
number of cores that is rounded up, except for the greatest number of cores. Up to 2⁵³ no number of
cores is rounded up. -/
theorem workers_within_cores_unless_rounded_up (share : Binary64) {cores : Nat} (hpos : 0 < cores)
    (hword : cores < 2 ^ 64) :
    1 ≤ workerCount share cores ∧
      (workerCount share cores ≤ cores ↔
        ¬ (IsFull share ∧ RoundsUp cores ∧ cores < 2 ^ 64 - 1)) ∧
      (IsFull share → workerCount share cores = min (2 ^ 64 - 1) (roundedCores cores)) ∧
      (cores ≤ 2 ^ 53 → ¬ RoundsUp cores) := by
  obtain ⟨p, hp, hnonneg, hle, hfull⟩ := number?_effectiveShare share
  obtain ⟨k, hk, hatMost, hexact⟩ := exists_product share hpos hword hp hnonneg hle
  obtain ⟨j, -, hrounded⟩ := exists_nearest_cores hpos
  have hproduct : numberOf k ≤ roundedCores cores :=
    (numberOf_strictMono.monotone (magnitude_product_le hrounded hk hle)).trans_eq hrounded
  have hcount : IsFull share → workerCount share cores = min (2 ^ 64 - 1) (roundedCores cores) := by
    intro h
    obtain rfl := hfull.2 h
    rw [mul_one, ← hrounded] at hk
    have hpositive := one_le_roundedCores hpos
    rw [hexact one_pos, hk.unique (nearest_numberOf j), hrounded, Nat.floor_natCast, maxWord]
    omega
  refine ⟨le_max_left _ _, ⟨?_, ?_⟩, hcount, not_roundsUp_of_le⟩
  · rintro hwithin ⟨h, hup, hless⟩
    have hgreater := roundsUp_iff.1 hup
    rw [hcount h] at hwithin
    omega
  · intro hnot
    -- the greatest count is rounded up as well, but the product is cut off at it
    have hcores : numberOf k ≤ cores ∨ maxWord ≤ cores := by
      by_cases hup : RoundsUp cores
      · by_cases h : IsFull share
        · right
          exact Nat.le_of_not_lt fun hless => hnot ⟨h, hup, hless⟩
        · left
          have hless : p < 1 := lt_of_le_of_ne hle (mt hfull.1 h)
          exact (numberOf_product_lt hpos hword hup hk (le_of_number?_lt_one hp hless)).le
      · left
        refine hproduct.trans ?_
        exact_mod_cast not_lt.1 (mt roundsUp_iff.2 hup)
    refine hatMost.trans (max_le hpos ?_)
    rcases hcores with h | h
    · exact (min_le_right _ _).trans (Nat.floor_le_of_le h)
    · exact (min_le_left _ _).trans h

/-- A full share of 2⁵³ + 1 cores lacks one of them. -/
theorem full_share_loses_a_core :
    0 < 2 ^ 53 + 1 ∧ 2 ^ 53 + 1 < 2 ^ 64 ∧ workerCount Binary64.one (2 ^ 53 + 1) = 2 ^ 53 := by
  have hfull : IsFull Binary64.one := ⟨1, number?_one, le_rfl⟩
  have hpos : 0 < 2 ^ 53 + 1 := by decide
  have hword : 2 ^ 53 + 1 < 2 ^ 64 := by decide
  obtain ⟨-, -, hcount, -⟩ := workers_within_cores_unless_rounded_up Binary64.one hpos hword
  exact ⟨hpos, hword, (hcount hfull).trans (by decide)⟩

/-- A full share of 2⁵³ + 3 cores has a worker too many. -/
theorem more_workers_than_cores :
    9007199254740995 < workerCount Binary64.one 9007199254740995 := by
  decide

end FieldVault.Wipe
