import FieldVault.Binary64.Shortest
import FieldVault.Proofs.Binary64.Rounding

/-!
# The shortest decimal

The numbers that are rounded to one double lie between two bounds, so whatever lies between two of
them is rounded to it as well (`Nearest.between`). On a decimal grid only the two neighbours of the
double have to be tried for that reason, and coarser grids than the first can be left out. What is
found is therefore the shortest of all decimals that are rounded to the double, and the nearest of
the shortest ones (`isShortest_shortest`); and there is only one such decimal
(`IsShortest.unique`).
-/

set_option autoImplicit false

namespace FieldVault.Binary64

/-! ### Decimals -/

/-- The number that a decimal stands for. -/
def Decimal.number (d : Decimal) : ℚ := d.digits * 10 ^ d.exponent

theorem decimalLength_le_iff {n k : Nat} : decimalLength n ≤ k ↔ n < 10 ^ k := by
  rw [decimalLength]
  obtain rfl | hn := Nat.eq_zero_or_pos n
  · simp
  · rw [if_neg hn.ne']
    obtain rfl | hk := Nat.eq_zero_or_pos k
    · have hlength := @Nat.length_toDigits_pos 10 n
      omega
    · exact Nat.length_toDigits_le_iff (by decide) hk

theorem lt_pow_decimalLength (n : Nat) : n < 10 ^ decimalLength n :=
  decimalLength_le_iff.1 le_rfl

theorem decimalLength_pos {n : Nat} (hn : 0 < n) : 0 < decimalLength n := by
  by_contra hzero
  have hlt := decimalLength_le_iff.1 (Nat.le_of_not_lt hzero)
  omega

theorem pow_decimalLength_le {n : Nat} (hn : 0 < n) : 10 ^ (decimalLength n - 1) ≤ n := by
  by_contra hlt
  have hle := decimalLength_le_iff.2 (Nat.lt_of_not_le hlt)
  have hpos := decimalLength_pos hn
  omega

/-- A number of a given length is between two powers of ten. -/
theorem decimalLength_bounds {n : Nat} (hn : 0 < n) :
    (10 : ℚ) ^ ((decimalLength n : Int) - 1) ≤ n ∧
      (n + 1 : ℚ) ≤ 10 ^ (decimalLength n : Int) := by
  have hpos := decimalLength_pos hn
  have hpred : (decimalLength n : Int) - 1 = ((decimalLength n - 1 : Nat) : Int) := by omega
  constructor
  · rw [hpred, zpow_natCast]
    exact_mod_cast pow_decimalLength_le hn
  · rw [zpow_natCast]
    exact_mod_cast lt_pow_decimalLength n

/-- The leading digit of a quotient stands at the power of ten that is computed. -/
theorem floorLog10_spec {n d : Nat} (hn : 0 < n) (hd : 0 < d) :
    (10 : ℚ) ^ floorLog10 n d ≤ n / d ∧ (n / d : ℚ) < 10 ^ (floorLog10 n d + 1) := by
  have hdrat : (0 : ℚ) < d := by exact_mod_cast hd
  rw [floorLog10]
  split
  · rename_i hle
    obtain ⟨hlow, hhigh⟩ := decimalLength_bounds (Nat.div_pos hle hd)
    have hfloor : ((n / d : Nat) : ℚ) ≤ n / d ∧ (n / d : ℚ) < (n / d : Nat) + 1 := by
      rw [← @Nat.floor_div_eq_div ℚ]
      exact ⟨Nat.floor_le (by positivity), Nat.lt_floor_add_one _⟩
    rw [sub_add_cancel]
    exact ⟨hlow.trans hfloor.1, hfloor.2.trans_le hhigh⟩
  · rename_i hlt
    -- the inverse is between a whole number and the next one
    have hdiv := Nat.div_add_mod (d + n - 1) n
    have hmod := Nat.mod_lt (d + n - 1) hn
    have htwo : 2 ≤ (d + n - 1) / n := (Nat.le_div_iff_mul_le hn).2 (by omega)
    obtain ⟨r, hr⟩ : ∃ r, (d + n - 1) / n = r + 1 := Nat.exists_eq_succ_of_ne_zero (by omega)
    rw [hr] at hdiv htwo ⊢
    rw [Nat.add_sub_cancel]
    rw [Nat.mul_succ] at hdiv
    have hbelow : (n * r : ℚ) < d := by
      have hnat : n * r < d := by omega
      exact_mod_cast hnat
    have habove : (d : ℚ) ≤ n * (r + 1) := by
      have hnat : d ≤ n * r + n := by omega
      have hrat : (d : ℚ) ≤ n * r + n := by exact_mod_cast hnat
      linarith
    obtain ⟨hlow, hhigh⟩ := decimalLength_bounds (n := r) (by omega)
    have hnrat : (0 : ℚ) < n := by exact_mod_cast hn
    have hneg : -(decimalLength r : Int) + 1 = -((decimalLength r : Int) - 1) := by ring
    constructor
    · rw [le_div_iff₀ hdrat, zpow_neg, inv_mul_le_iff₀ (by positivity)]
      nlinarith
    · rw [div_lt_iff₀ hdrat, hneg, zpow_neg, lt_inv_mul_iff₀ (by positivity)]
      nlinarith

/-! ### The numbers around a double -/

section

variable {s t u : ℚ} {j k : Nat}

/-- What lies between two numbers with the same nearest magnitude has it, too. -/
theorem Nearest.between (hs : Nearest s k) (hu : Nearest u k) (hst : s ≤ t) (htu : t ≤ u) :
    Nearest t k := by
  constructor
  · rcases hu.notAbove with h | ⟨h, heven⟩
    · left
      linarith
    · obtain hlt | rfl := lt_or_eq_of_le htu
      · left
        linarith
      · exact .inr ⟨h, heven⟩
  · intro lower hlower
    rcases hs.notBelow lower hlower with h | ⟨h, heven⟩
    · left
      linarith
    · obtain hlt | rfl := lt_or_eq_of_le hst
      · left
        linarith
      · exact .inr ⟨h, heven⟩

theorem nearest_succ_iff :
    Nearest t (j + 1) ↔
      (numberOf j + numberOf (j + 1) < 2 * t ∨
        numberOf j + numberOf (j + 1) = 2 * t ∧ (j + 1) % 2 = 0) ∧
      (2 * t < numberOf (j + 1) + numberOf (j + 2) ∨
        2 * t = numberOf (j + 1) + numberOf (j + 2) ∧ (j + 1) % 2 = 0) := by
  constructor
  · intro h
    exact ⟨h.notBelow j rfl, h.notAbove⟩
  · rintro ⟨hbelow, habove⟩
    refine ⟨habove, ?_⟩
    rintro lower hlower
    cases hlower
    exact hbelow

end

/-- The numbers of a neighbourhood. -/
def Neighbourhood.Holds (h : Neighbourhood) (t : ℚ) : Prop :=
  if h.included then h.lower * 2 ^ h.exponent ≤ t ∧ t ≤ h.upper * 2 ^ h.exponent
  else h.lower * 2 ^ h.exponent < t ∧ t < h.upper * 2 ^ h.exponent

/-- A neighbourhood reaches half the way to the doubles next to it. -/
theorem neighbourhood_bounds {exponent significand lower : Nat}
    (hlow : exponent = 0 ∨ 2 ^ 52 ≤ significand) (hhigh : significand < 2 ^ 53)
    (hlower : exponent * 2 ^ 52 + significand = lower + 1) :
    let h := neighbourhood significand (exponent + minExponent)
    numberOf lower + numberOf (lower + 1) = 2 * (h.lower * 2 ^ h.exponent) ∧
      numberOf (lower + 1) = h.centre * 2 ^ h.exponent ∧
      numberOf (lower + 1) + numberOf (lower + 2) = 2 * (h.upper * 2 ^ h.exponent) := by
  have hquarter : (2 : ℚ) ^ ((exponent : Int) + minExponent) =
      4 * 2 ^ ((exponent : Int) + minExponent - 2) := by
    rw [zpow_sub₀ two_ne_zero]
    ring
  have hcentre : numberOf (lower + 1) =
      significand * (4 * 2 ^ ((exponent : Int) + minExponent - 2)) := by
    rw [← hlower, numberOf_add hlow hhigh.le, hquarter]
  have hupper : numberOf (lower + 2) =
      (significand + 1) * (4 * 2 ^ ((exponent : Int) + minExponent - 2)) := by
    rw [← Nat.add_assoc lower 1 1, ← hlower, (le_numberOf_add_succ hlow hhigh.le).2 hhigh, hquarter]
  intro h
  refine ⟨?_, ?_, ?_⟩
  · obtain ⟨r, rfl, hleast, hpred⟩ | ⟨e, rfl, rfl, hpred⟩ := numberOf_add_pred hlow hhigh.le hlower
    · have hbelow : h.lower = 4 * (r + 1) - 2 := by
        change 4 * (r + 1) -
          (if r + 1 = 1 <<< 52 ∧ minExponent < exponent + minExponent then 1 else 2) = _
        rw [if_neg (by omega)]
      have hcast : (h.lower : ℚ) = 4 * r + 2 := by
        rw [hbelow, show 4 * (r + 1) - 2 = 4 * r + 2 by omega]
        push_cast
        rfl
      rw [hcentre, hpred, hcast, hquarter]
      change _ = 2 * ((4 * r + 2) * (2 : ℚ) ^ ((exponent : Int) + minExponent - 2))
      push_cast
      ring
    · have hbelow : h.lower = 4 * 2 ^ 52 - 1 := by
        change 4 * 2 ^ 52 - (if 2 ^ 52 = 1 <<< 52 ∧
          minExponent < ((e + 1 : Nat) : Int) + minExponent then 1 else 2) = _
        rw [if_pos ⟨rfl, by omega⟩]
      rw [hcentre, hpred, hbelow]
      rw [two_zpow_succ_add] at hquarter
      change _ = 2 * (_ * (2 : ℚ) ^ (((e + 1 : Nat) : Int) + minExponent - 2))
      push_cast at hquarter ⊢
      linarith
  · rw [hcentre]
    simp only [h, neighbourhood]
    push_cast
    ring
  · rw [hcentre, hupper]
    simp only [h, neighbourhood]
    push_cast
    ring

/-- A neighbourhood consists of the numbers that are rounded to its double. -/
theorem holds_neighbourhood_iff {exponent significand lower : Nat} {t : ℚ}
    (hlow : exponent = 0 ∨ 2 ^ 52 ≤ significand) (hhigh : significand < 2 ^ 53)
    (hlower : exponent * 2 ^ 52 + significand = lower + 1) :
    (neighbourhood significand (exponent + minExponent)).Holds t ↔ Nearest t (lower + 1) := by
  obtain ⟨hbelow, -, habove⟩ := neighbourhood_bounds hlow hhigh hlower
  have heven : (neighbourhood significand (exponent + minExponent)).included =
      decide ((lower + 1) % 2 = 0) := by
    change decide (significand % 2 = 0) = _
    congr 1
    apply propext
    omega
  rw [nearest_succ_iff, hbelow, habove, Neighbourhood.Holds, heven]
  by_cases h : (lower + 1) % 2 = 0
  · simp [h, le_iff_lt_or_eq]
  · simp [h]

/-! ### A decimal grid -/

theorem pow_toNat {b : ℚ} (hb : b ≠ 0) (p : Int) : b ^ p.toNat = b ^ p * b ^ (-p).toNat := by
  obtain ⟨k, rfl | rfl⟩ := Int.eq_nat_or_neg p
  · simp
  · simp [hb]

/-- Whole numbers stand for a power of two and a power of ten on a common scale. -/
theorem exists_scale (e power : Int) :
    ∃ scale : ℚ, 0 < scale ∧
      ((Nat.pow 10 (-power).toNat <<< e.toNat : Nat) : ℚ) = 2 ^ e * scale ∧
      ((Nat.pow 10 power.toNat <<< (-e).toNat : Nat) : ℚ) = 10 ^ power * scale := by
  refine ⟨10 ^ (-power).toNat * 2 ^ (-e).toNat, by positivity, ?_, ?_⟩
  · rw [Nat.shiftLeft_eq, Nat.pow_eq, Nat.cast_mul, Nat.cast_pow, Nat.cast_pow, Nat.cast_ofNat,
      Nat.cast_ofNat, pow_toNat two_ne_zero]
    ring
  · rw [Nat.shiftLeft_eq, Nat.pow_eq, Nat.cast_mul, Nat.cast_pow, Nat.cast_pow, Nat.cast_ofNat,
      Nat.cast_ofNat, pow_toNat (by norm_num)]
    ring

open Classical in
/-- The numbers of a grid next to the double are tried, first the lesser one. -/
theorem onGrid_eq (h : Neighbourhood) (power : Int) :
    ∃ down : Nat, down * 10 ^ power ≤ (h.centre * 2 ^ h.exponent : ℚ) ∧
      (h.centre * 2 ^ h.exponent : ℚ) < (down + 1 : Nat) * 10 ^ power ∧
      onGrid .up h power =
        if h.Holds (down * 10 ^ power) ∧ 0 < down then
          if h.Holds ((down + 1 : Nat) * 10 ^ power) ∧
              ((2 * down + 1 : Nat) * 10 ^ power : ℚ) ≤ 2 * (h.centre * 2 ^ h.exponent) then
            some ⟨down + 1, power⟩
          else some ⟨down, power⟩
        else if h.Holds ((down + 1 : Nat) * 10 ^ power) then some ⟨down + 1, power⟩
        else none := by
  obtain ⟨scale, hscale, hunit, hstep⟩ := exists_scale h.exponent power
  unfold onGrid
  dsimp only
  generalize Nat.pow 10 (-power).toNat <<< h.exponent.toNat = unit at hunit ⊢
  generalize Nat.pow 10 power.toNat <<< (-h.exponent).toNat = step at hstep ⊢
  have hscaled (a c : Nat) : (a * unit ≤ c * step ↔ (a * 2 ^ h.exponent : ℚ) ≤ c * 10 ^ power) ∧
      (c * step ≤ a * unit ↔ (c * 10 ^ power : ℚ) ≤ a * 2 ^ h.exponent) := by
    rw [← @Nat.cast_le ℚ, ← @Nat.cast_le ℚ, Nat.cast_mul, Nat.cast_mul, hunit, hstep, ← mul_assoc,
      ← mul_assoc, mul_le_mul_iff_left₀ hscale, mul_le_mul_iff_left₀ hscale]
    exact ⟨Iff.rfl, Iff.rfl⟩
  have hinside (c : Nat) :
      (if h.included then decide (h.lower * unit ≤ c * step) && decide (c * step ≤ h.upper * unit)
        else decide (h.lower * unit < c * step) && decide (c * step < h.upper * unit)) = true ↔
      h.Holds (c * 10 ^ power) := by
    rw [Neighbourhood.Holds]
    split
    · simp [(hscaled h.lower c).1, (hscaled h.upper c).2]
    · simp [← not_le, (hscaled h.lower c).2, (hscaled h.upper c).1]
  have hpos : 0 < step := by
    rw [← @Nat.cast_pos ℚ, hstep]
    positivity
  refine ⟨h.centre * unit / step, ?_, ?_, ?_⟩
  · exact (hscaled _ _).2.1 (Nat.div_mul_le_self _ _)
  · rw [← not_le, ← (hscaled _ _).2, not_le]
    exact Nat.lt_mul_of_div_lt (Nat.lt_succ_self _) hpos
  · generalize h.centre * unit / step = down
    have hmiddle : ((2 * down + 1) * step ≤ 2 * (h.centre * unit)) ↔
        ((2 * down + 1 : Nat) * 10 ^ power : ℚ) ≤ 2 * (h.centre * 2 ^ h.exponent) := by
      rw [← Nat.mul_assoc, (hscaled _ _).2, Nat.cast_mul 2, Nat.cast_ofNat, mul_assoc]
    have hprefer : (decide ((2 * down + 1) * step < 2 * (h.centre * unit)) ||
        decide ((2 * down + 1) * step = 2 * (h.centre * unit)) && true) = true ↔
        ((2 * down + 1 : Nat) * 10 ^ power : ℚ) ≤ 2 * (h.centre * 2 ^ h.exponent) := by
      rw [← hmiddle]
      simp [le_iff_lt_or_eq]
    simp only [Bool.and_eq_true, decide_eq_true_eq, hinside, hprefer]

/-! ### The nearest decimal of a grid -/

/-- A number is nearer to that of some magnitude bits than another one, or as near and not less. -/
def Closer (k : Nat) (s t : ℚ) : Prop :=
  |s - numberOf k| < |t - numberOf k| ∨ |s - numberOf k| = |t - numberOf k| ∧ t ≤ s

section

variable {k : Nat} {r s t : ℚ}

theorem Closer.trans (hrs : Closer k r s) (hst : Closer k s t) : Closer k r t := by
  rcases hrs with hlt | ⟨heq, hle⟩
  · rcases hst with hlt' | ⟨heq', -⟩
    · exact .inl (hlt.trans hlt')
    · exact .inl (hlt.trans_eq heq')
  · rcases hst with hlt' | ⟨heq', hle'⟩
    · exact .inl (heq.trans_lt hlt')
    · exact .inr ⟨heq.trans heq', hle'.trans hle⟩

theorem closer_of_le_of_le (hts : t ≤ s) (hs : s ≤ numberOf k) : Closer k s t := by
  rw [Closer, abs_of_nonpos (sub_nonpos.2 hs), abs_of_nonpos (sub_nonpos.2 (hts.trans hs))]
  obtain hlt | rfl := lt_or_eq_of_le hts
  · left
    linarith
  · exact .inr ⟨rfl, le_rfl⟩

/-- Of two numbers on both sides the greater one is nearer, unless their middle is greater still. -/
theorem closer_of_add_le (hs : s ≤ numberOf k) (ht : numberOf k ≤ t)
    (hmiddle : s + t ≤ 2 * numberOf k) : Closer k t s := by
  rw [Closer, abs_of_nonpos (sub_nonpos.2 hs), abs_of_nonneg (sub_nonneg.2 ht)]
  obtain hless | hequal := lt_or_eq_of_le hmiddle
  · left
    linarith
  · exact .inr ⟨by linarith, hs.trans ht⟩

theorem closer_of_lt_add (hs : s ≤ numberOf k) (ht : numberOf k ≤ t)
    (hmiddle : 2 * numberOf k < s + t) : Closer k s t := by
  rw [Closer, abs_of_nonpos (sub_nonpos.2 hs), abs_of_nonneg (sub_nonneg.2 ht)]
  left
  linarith

theorem not_closer_of_lt_of_le (hst : s < t) (ht : t ≤ numberOf k) : ¬ Closer k s t := by
  rw [Closer, abs_of_nonpos (sub_nonpos.2 ht), abs_of_nonpos (sub_nonpos.2 (hst.le.trans ht))]
  rintro (hlt | ⟨heq, -⟩) <;> linarith

theorem not_closer_of_lt_of_ge (hts : t < s) (ht : numberOf k ≤ t) : ¬ Closer k s t := by
  rw [Closer, abs_of_nonneg (sub_nonneg.2 ht), abs_of_nonneg (sub_nonneg.2 (ht.trans hts.le))]
  rintro (hlt | ⟨heq, -⟩) <;> linarith

theorem closer_of_ge_of_ge (hst : s ≤ t) (hs : numberOf k ≤ s) : Closer k s t := by
  rw [Closer, abs_of_nonneg (sub_nonneg.2 hs), abs_of_nonneg (sub_nonneg.2 (hs.trans hst))]
  obtain hlt | rfl := lt_or_eq_of_le hst
  · left
    linarith
  · exact .inr ⟨rfl, le_rfl⟩

end

/-- A neighbourhood is that of some magnitude bits. -/
structure Neighbourhood.IsAround (h : Neighbourhood) (k : Nat) : Prop where
  holds_iff : ∀ t, h.Holds t ↔ Nearest t k
  centre : h.centre * 2 ^ h.exponent = numberOf k

section

variable {h : Neighbourhood} {power : Int} {k : Nat} {d : Decimal}

theorem mul_zpow_le {b c : Nat} (hle : b ≤ c) : (b * 10 ^ power : ℚ) ≤ c * 10 ^ power :=
  mul_le_mul_of_nonneg_right (Nat.cast_le.2 hle) (by positivity)

/-- Where nothing is found on a grid, no number of it is rounded to the double, since its neighbour
on the same side would be, too. -/
theorem onGrid_eq_none (ha : h.IsAround k) (hnone : onGrid .up h power = none) {c : Nat}
    (hc : 0 < c) : ¬ Nearest (c * 10 ^ power) k := by
  obtain ⟨down, hle, hlt, heq⟩ := onGrid_eq h power
  rw [ha.centre] at hle hlt
  rw [hnone, ha.holds_iff, ha.holds_iff] at heq
  intro hnear
  have hcentre := nearest_numberOf k
  obtain hcd | hcd : c ≤ down ∨ down + 1 ≤ c := by omega
  · have hdown := hnear.between hcentre (mul_zpow_le hcd) hle
    rw [if_pos ⟨hdown, hc.trans_le hcd⟩] at heq
    split at heq <;> cases heq
  · have hup := hcentre.between hnear hlt.le (mul_zpow_le hcd)
    rw [if_pos hup] at heq
    split at heq
    · split at heq <;> cases heq
    · cases heq

/-- What is found on a grid is the nearest number of the grid that is rounded to the double. -/
theorem onGrid_eq_some (ha : h.IsAround k) (hsome : onGrid .up h power = some d) :
    d.exponent = power ∧ 0 < d.digits ∧ Nearest d.number k ∧
      ∀ c : Nat, 0 < c → Nearest (c * 10 ^ power) k → Closer k d.number (c * 10 ^ power) := by
  obtain ⟨down, hle, hlt, heq⟩ := onGrid_eq h power
  rw [ha.centre] at hle hlt
  rw [hsome, ha.holds_iff, ha.holds_iff, ha.centre] at heq
  have hcentre := nearest_numberOf k
  have hbelow {c : Nat} (hcd : c ≤ down) : Closer k (down * 10 ^ power) (c * 10 ^ power) :=
    closer_of_le_of_le (mul_zpow_le hcd) hle
  have habove {c : Nat} (hcd : down + 1 ≤ c) :
      Closer k ((down + 1 : Nat) * 10 ^ power) (c * 10 ^ power) :=
    closer_of_ge_of_ge (mul_zpow_le hcd) hlt.le
  have hmiddle : ((2 * down + 1 : Nat) * 10 ^ power : ℚ) =
      down * 10 ^ power + (down + 1 : Nat) * 10 ^ power := by
    push_cast
    ring
  rw [hmiddle] at heq
  split at heq
  · rename_i hdown
    split at heq
    · rename_i hup
      cases heq
      refine ⟨rfl, Nat.succ_pos _, hup.1, fun c hc hnear => ?_⟩
      obtain hcd | hcd : c ≤ down ∨ down + 1 ≤ c := by omega
      · exact (closer_of_add_le hle hlt.le hup.2).trans (hbelow hcd)
      · exact habove hcd
    · rename_i hnot
      cases heq
      refine ⟨rfl, hdown.2, hdown.1, fun c hc hnear => ?_⟩
      obtain hcd | hcd : c ≤ down ∨ down + 1 ≤ c := by omega
      · exact hbelow hcd
      · -- the greater neighbour is rounded to the double as well, so it was not the nearer one
        have hup := hcentre.between hnear hlt.le (mul_zpow_le hcd)
        have hmiddle := not_le.1 fun h => hnot ⟨hup, h⟩
        exact (closer_of_lt_add hle hlt.le hmiddle).trans (habove hcd)
  · rename_i hnot
    split at heq
    · rename_i hup
      cases heq
      refine ⟨rfl, Nat.succ_pos _, hup, fun c hc hnear => ?_⟩
      obtain hcd | hcd : c ≤ down ∨ down + 1 ≤ c := by omega
      · have hdown := hnear.between hcentre (mul_zpow_le hcd) hle
        exact absurd ⟨hdown, hc.trans_le hcd⟩ hnot
      · exact habove hcd
    · cases heq

end

/-! ### The search -/

/-- If one of the grids has a decimal, that of the first such grid is found. -/
theorem exists_search_eq {tie : Tie} {h : Neighbourhood} {count : Nat} {power : Int}
    (hfound : ∃ i < count, onGrid tie h (power - (i : Nat)) ≠ none) :
    ∃ i < count, onGrid tie h (power - (i : Nat)) = some (search tie h count power) ∧
      ∀ j < i, onGrid tie h (power - (j : Nat)) = none := by
  induction count generalizing power with
  | zero =>
    obtain ⟨i, hi, -⟩ := hfound
    exact absurd hi (Nat.not_lt_zero i)
  | succ count ih =>
    rw [search]
    cases hfirst : onGrid tie h power with
    | some d =>
      refine ⟨0, Nat.succ_pos _, ?_, fun j hj => absurd hj (Nat.not_lt_zero j)⟩
      simpa using hfirst
    | none =>
      -- the rest of the search begins one power lower, so its grids are counted from one
      have hshift (i : Nat) : power - ((i + 1 : Nat) : Int) = power - 1 - (i : Nat) := by
        push_cast
        ring
      have hrest : ∃ i < count, onGrid tie h (power - 1 - (i : Nat)) ≠ none := by
        obtain ⟨i, hi, hsome⟩ := hfound
        cases i with
        | zero => exact absurd (by simpa using hfirst) hsome
        | succ i => exact ⟨i, Nat.lt_of_succ_lt_succ hi, hshift i ▸ hsome⟩
      obtain ⟨i, hi, hsome, hnone⟩ := ih hrest
      refine ⟨i + 1, Nat.succ_lt_succ hi, hshift i ▸ hsome, fun j hj => ?_⟩
      cases j with
      | zero => simpa using hfirst
      | succ j => exact hshift j ▸ hnone j (Nat.lt_of_succ_lt_succ hj)

/-- A grid of seventeen digits is finer than the doubles. -/
theorem onGrid_ne_none {h : Neighbourhood} {power : Int} {k : Nat} (ha : h.IsAround k)
    (hpower : 10 ^ 16 * 10 ^ power ≤ numberOf k) : onGrid .up h power ≠ none := by
  intro hnone
  have hstep : (0 : ℚ) < 10 ^ power := by positivity
  obtain ⟨down, hle, hlt, -⟩ := onGrid_eq h power
  rw [ha.centre] at hle hlt
  have hdown : 0 < down := by
    refine Nat.pos_of_ne_zero ?_
    rintro rfl
    push_cast at hlt
    linarith
  obtain ⟨j, rfl⟩ : ∃ j, k = j + 1 := by
    refine Nat.exists_eq_succ_of_ne_zero ?_
    rintro rfl
    rw [numberOf_zero] at hpower
    linarith
  -- neither neighbour is rounded to the double, so both of the next doubles are close
  have hbelow := mt nearest_succ_iff.2 (onGrid_eq_none ha hnone hdown)
  have habove := mt nearest_succ_iff.2 (onGrid_eq_none ha hnone down.succ_pos)
  have hlow := numberOf_strictMono j.lt_succ_self
  have hhigh := numberOf_strictMono (j + 1).lt_succ_self
  have hgap := two_mul_numberOf_lt j
  have hclose : 2 * (down * 10 ^ power) ≤ numberOf j + numberOf (j + 1) := by
    by_contra hgt
    exact hbelow ⟨.inl (not_le.1 hgt), .inl (by linarith)⟩
  have hclose' : numberOf (j + 1) + numberOf (j + 2) ≤ 2 * ((down + 1 : Nat) * 10 ^ power) := by
    by_contra hgt
    exact habove ⟨.inl (by linarith), .inl (not_le.1 hgt)⟩
  push_cast at hclose'
  linarith

/-- The decimal that is written for some magnitude bits: it has no zero at its end, it is rounded to
them, no decimal with fewer digits is, and of those with as many digits it is the nearest. -/
structure IsShortest (k : Nat) (d : Decimal) : Prop where
  reduced : d.digits % 10 ≠ 0
  rounds : Nearest d.number k
  fewest : ∀ other : Decimal, 0 < other.digits → Nearest other.number k →
    decimalLength d.digits ≤ decimalLength other.digits
  nearest : ∀ other : Decimal, decimalLength other.digits = decimalLength d.digits →
    Nearest other.number k → Closer k d.number other.number

theorem IsShortest.digits_pos {k : Nat} {d : Decimal} (h : IsShortest k d) : 0 < d.digits := by
  have hreduced := h.reduced
  omega

theorem trim_of_ne {count : Nat} {d : Decimal} (h : d.digits % 10 ≠ 0) : trim count d = d := by
  cases count with
  | zero => rfl
  | succ count => rw [trim, if_neg h]

section

variable {h : Neighbourhood} {power : Int} {k count : Nat} {d : Decimal}

theorem Decimal.number_lt (d : Decimal) :
    d.number < 10 ^ ((decimalLength d.digits : Int) + d.exponent) := by
  have hdigits : (d.digits : ℚ) < 10 ^ decimalLength d.digits := by
    exact_mod_cast lt_pow_decimalLength d.digits
  rw [Decimal.number, zpow_add₀ (by norm_num), zpow_natCast]
  exact mul_lt_mul_of_pos_right hdigits (by positivity)

theorem pow_mul_zpow_sub (i : Nat) (power : Int) :
    ((10 ^ i : Nat) * 10 ^ (power - (i : Nat)) : ℚ) = 10 ^ power := by
  rw [Nat.cast_pow, Nat.cast_ofNat, ← zpow_natCast, ← zpow_add₀ (by norm_num), add_sub_cancel]

/-- A decimal of as many digits as the double has on a grid is on that grid, or it is less than the
power of ten below the double. -/
theorem Decimal.exists_number_eq_or_lt (power : Int) {i : Nat}
    (hlength : decimalLength d.digits = i + 1) :
    (∃ c : Nat, 0 < c ∧ d.number = c * 10 ^ (power - (i : Nat))) ∨ d.number < 10 ^ power := by
  by_cases hle : power - (i : Nat) ≤ d.exponent
  · left
    obtain ⟨n, hn⟩ := Int.le.dest hle
    have hpos : 0 < d.digits := by
      refine Nat.pos_of_ne_zero fun hzero => ?_
      rw [hzero] at hlength
      cases hlength
    refine ⟨d.digits * 10 ^ n, Nat.mul_pos hpos (Nat.pow_pos (by decide)), ?_⟩
    rw [Decimal.number, ← hn, add_comm, zpow_add₀ (by norm_num), zpow_natCast]
    push_cast
    ring
  · right
    refine d.number_lt.trans_le ?_
    rw [hlength]
    exact zpow_le_zpow_right₀ (by norm_num) (by omega)

/-- A decimal that is rounded to the double has as many digits as the first grid on which there is
one. -/
theorem lt_decimalLength_of_first {i : Nat} (ha : h.IsAround k) (hlow : 10 ^ power ≤ numberOf k)
    (hfirst : ∀ j < i, onGrid .up h (power - (j : Nat)) = none) (hd : 0 < d.digits)
    (hnear : Nearest d.number k) : i + 1 ≤ decimalLength d.digits := by
  by_contra hless
  obtain ⟨j, hj⟩ := Nat.exists_eq_succ_of_ne_zero (decimalLength_pos hd).ne'
  have hnone {c : Nat} (hc : 0 < c) : ¬ Nearest (c * 10 ^ (power - (j : Nat))) k :=
    onGrid_eq_none ha (hfirst j (by omega)) hc
  obtain ⟨c, hc, heq⟩ | hlt := Decimal.exists_number_eq_or_lt power hj
  · exact hnone hc (heq ▸ hnear)
  · -- then the power of ten below the double is rounded to it, and it is on that grid
    refine hnone (c := 10 ^ j) (Nat.pow_pos (by decide)) ?_
    rw [pow_mul_zpow_sub]
    exact hnear.between (nearest_numberOf k) hlt.le hlow

/-- What is nearest on a grid has as many digits as the double has on it, or is the power of ten
above it. -/
theorem digits_bounds_of_closer {i : Nat} (hlow : 10 ^ power ≤ numberOf k)
    (hhigh : numberOf k < 10 ^ (power + 1)) (hexponent : d.exponent = power - (i : Nat))
    (hnear : Nearest d.number k)
    (hcloser : ∀ c : Nat, 0 < c → Nearest (c * 10 ^ (power - (i : Nat))) k →
      Closer k d.number (c * 10 ^ (power - (i : Nat)))) :
    10 ^ i ≤ d.digits ∧ d.digits ≤ 10 ^ (i + 1) := by
  have hcentre := nearest_numberOf k
  have hstep : (0 : ℚ) < 10 ^ (power - (i : Nat)) := by positivity
  have htop : ((10 ^ (i + 1) : Nat) * 10 ^ (power - (i : Nat)) : ℚ) = 10 ^ (power + 1) := by
    rw [← pow_mul_zpow_sub (i + 1) (power + 1)]
    push_cast
    rw [add_sub_add_right_eq_sub]
  have hnumber : d.number = d.digits * 10 ^ (power - (i : Nat)) := by
    rw [Decimal.number, hexponent]
  constructor
  · by_contra hless
    have hlt : d.number < 10 ^ power := by
      rw [hnumber, ← pow_mul_zpow_sub i power]
      exact mul_lt_mul_of_pos_right (Nat.cast_lt.2 (Nat.lt_of_not_le hless)) hstep
    have hpower := hcloser (10 ^ i) (Nat.pow_pos (by decide))
    rw [pow_mul_zpow_sub] at hpower
    exact not_closer_of_lt_of_le hlt hlow (hpower (hnear.between hcentre hlt.le hlow))
  · by_contra hgreater
    have hlt : 10 ^ (power + 1) < d.number := by
      rw [hnumber, ← htop]
      exact mul_lt_mul_of_pos_right (Nat.cast_lt.2 (Nat.lt_of_not_le hgreater)) hstep
    have hpower := hcloser (10 ^ (i + 1)) (Nat.pow_pos (by decide))
    rw [htop] at hpower
    exact not_closer_of_lt_of_ge hlt hhigh.le (hpower (hcentre.between hnear hhigh.le hlt.le))

/-- What is found on the first of ever finer grids loses no digits with the zero at its end, unless
it is the power of ten above the double on the first grid of all. -/
theorem trim_of_first {i : Nat} (ha : h.IsAround k) (hexponent : d.exponent = power - (i : Nat))
    (hpos : 0 < d.digits) (hnear : Nearest d.number k)
    (hfirst : ∀ j < i, onGrid .up h (power - (j : Nat)) = none)
    (hbounds : 10 ^ i ≤ d.digits ∧ d.digits ≤ 10 ^ (i + 1)) :
    (trim 17 d).digits % 10 ≠ 0 ∧ (trim 17 d).number = d.number ∧
      decimalLength (trim 17 d).digits = i + 1 := by
  by_cases hzero : d.digits % 10 = 0
  · -- without its last zero the decimal is on the grid before, so there is none
    obtain rfl | hi := Nat.eq_zero_or_pos i
    · obtain ⟨digits, exponent⟩ := d
      obtain rfl : digits = 10 := by
        dsimp only at *
        omega
      have htrim : trim 17 ⟨10, exponent⟩ = ⟨1, exponent + 1⟩ := by simp [trim]
      have hone : decimalLength 1 = 1 := by decide
      rw [htrim]
      refine ⟨Nat.one_ne_zero, ?_, hone⟩
      rw [Decimal.number, Decimal.number, zpow_add₀ (by norm_num)]
      push_cast
      ring
    · have htenth : 0 < d.digits / 10 := by omega
      refine absurd ?_ (onGrid_eq_none ha (hfirst (i - 1) (by omega)) htenth)
      have htens : (d.digits : ℚ) = 10 * (d.digits / 10 : Nat) := by
        exact_mod_cast (Nat.mul_div_cancel' (Nat.dvd_of_mod_eq_zero hzero)).symm
      have hcoarse : power - ((i - 1 : Nat) : Int) = d.exponent + 1 := by omega
      rw [hcoarse, zpow_add₀ (by norm_num), zpow_one, mul_comm (10 ^ d.exponent), ← mul_assoc,
        mul_comm _ (10 : ℚ), ← htens]
      exact hnear
  · have hless : d.digits < 10 ^ (i + 1) := by
      refine lt_of_le_of_ne hbounds.2 fun heq => hzero ?_
      rw [heq, Nat.pow_succ]
      exact Nat.mul_mod_left _ _
    have hlength := decimalLength_le_iff.2 hless
    have hlength' := mt decimalLength_le_iff.1 (Nat.not_lt.2 hbounds.1)
    rw [trim_of_ne hzero]
    exact ⟨hzero, rfl, by omega⟩

/-- What is found on the first of ever finer grids is the shortest decimal, once the zero at its end
is taken off. -/
theorem isShortest_of_first {i : Nat} (ha : h.IsAround k) (hlow : 10 ^ power ≤ numberOf k)
    (hhigh : numberOf k < 10 ^ (power + 1)) (hfound : onGrid .up h (power - (i : Nat)) = some d)
    (hfirst : ∀ j < i, onGrid .up h (power - (j : Nat)) = none) :
    IsShortest k (trim 17 d) ∧ decimalLength (trim 17 d).digits = i + 1 := by
  obtain ⟨hexponent, hpos, hnear, hcloser⟩ := onGrid_eq_some ha hfound
  have hbounds := digits_bounds_of_closer hlow hhigh hexponent hnear hcloser
  obtain ⟨hreduced, hnumber, hlength⟩ := trim_of_first ha hexponent hpos hnear hfirst hbounds
  refine ⟨⟨hreduced, hnumber ▸ hnear, fun other hother hround => ?_, fun other hother hround => ?_⟩,
    hlength⟩
  · rw [hlength]
    exact lt_decimalLength_of_first ha hlow hfirst hother hround
  · rw [hnumber]
    rw [hlength] at hother
    obtain ⟨c, hc, heq⟩ | hlt := Decimal.exists_number_eq_or_lt power hother
    · rw [heq] at hround ⊢
      exact hcloser c hc hround
    · -- between such a decimal and the double there is the power of ten, which is on the grid
      have hpower := hcloser (10 ^ i) (Nat.pow_pos (by decide))
      rw [pow_mul_zpow_sub] at hpower
      have hclosest := hpower (hround.between (nearest_numberOf k) hlt.le hlow)
      exact hclosest.trans (closer_of_le_of_le hlt.le hlow)

end

/-! ### The shortest decimal -/

/-- The significand and the exponent of a finite double make up its magnitude bits. -/
theorem exists_exponent_of_value {x : Binary64} {negative : Bool} {significand : Nat} {e : Int}
    (h : x.value = .finite negative significand e) :
    ∃ exponent : Nat, e = exponent + minExponent ∧ (exponent = 0 ∨ 2 ^ 52 ≤ significand) ∧
      significand < 2 ^ 53 ∧ exponent * 2 ^ 52 + significand = x.magnitude ∧
      x.magnitude < infinityMagnitude ∧ x.isNegative = negative := by
  have hmod : x.magnitude % 2 ^ 52 < 2 ^ 52 := Nat.mod_lt _ (by decide)
  rw [value] at h
  split at h
  · cases h
  · split at h
    · cases h
    · have hfinite : x.magnitude < infinityMagnitude := by omega
      simp only [Nat.shiftRight_eq_div_pow, Nat.one_shiftLeft] at h
      split at h
      · cases h
        exact ⟨0, by simp, .inl rfl, by omega, by omega, hfinite, rfl⟩
      · cases h
        exact ⟨x.magnitude / 2 ^ 52 - 1, by omega, .inr (by omega), by omega, by omega, hfinite,
          rfl⟩

/-- The decimal computed for a double is the shortest one, of at most seventeen digits. -/
theorem isShortest_shortest {x : Binary64} {negative : Bool} {significand : Nat} {e : Int}
    (h : x.value = .finite negative significand e) (hpos : 0 < significand) :
    IsShortest x.magnitude (shortest .up significand e) ∧
      decimalLength (shortest .up significand e).digits ≤ 17 := by
  obtain ⟨exponent, rfl, hlow, hhigh, hmagnitude, -⟩ := exists_exponent_of_value h
  obtain ⟨lower, hlower⟩ : ∃ lower, x.magnitude = lower + 1 :=
    Nat.exists_eq_succ_of_ne_zero (by omega)
  rw [hlower] at hmagnitude ⊢
  have ha : (neighbourhood significand (exponent + minExponent)).IsAround (lower + 1) :=
    ⟨fun t => holds_neighbourhood_iff hlow hhigh hmagnitude,
      (neighbourhood_bounds hlow hhigh hmagnitude).2.1.symm⟩
  have hn : 0 < significand <<< ((exponent : Int) + minExponent).toNat := by
    rw [Nat.shiftLeft_eq]
    exact Nat.mul_pos hpos (Nat.two_pow_pos _)
  have hd : 0 < 1 <<< (-((exponent : Int) + minExponent)).toNat := by
    rw [Nat.one_shiftLeft]
    exact Nat.two_pow_pos _
  obtain ⟨hpower, hpower'⟩ := floorLog10_spec hn hd
  rw [shiftLeft_div_shiftLeft, ← numberOf_add hlow hhigh.le, hmagnitude] at hpower hpower'
  rw [shortest]
  generalize floorLog10 (significand <<< ((exponent : Int) + minExponent).toNat)
    (1 <<< (-((exponent : Int) + minExponent)).toNat) = power at hpower hpower' ⊢
  have hfine : (10 ^ 16 * 10 ^ (power - (16 : Nat)) : ℚ) ≤ numberOf (lower + 1) := by
    have hten := pow_mul_zpow_sub 16 power
    push_cast at hten ⊢
    exact hten.trans_le hpower
  have hlast : 16 < 17 := by decide
  obtain ⟨i, hi, hfound, hfirst⟩ := exists_search_eq ⟨16, hlast, onGrid_ne_none ha hfine⟩
  obtain ⟨hshortest, hlength⟩ := isShortest_of_first ha hpower hpower' hfound hfirst
  exact ⟨hshortest, by omega⟩

/-- Decimals without a zero at the end are determined by their numbers. -/
theorem Decimal.eq_of_number_eq {c d : Decimal} (hc : c.digits % 10 ≠ 0) (hd : d.digits % 10 ≠ 0)
    (heq : c.number = d.number) : c = d := by
  wlog hle : c.exponent ≤ d.exponent generalizing c d
  · exact (this hd hc heq.symm (le_of_not_ge hle)).symm
  obtain ⟨n, hn⟩ := Int.le.dest hle
  have hdigits : c.digits = d.digits * 10 ^ n := by
    have hpower : (10 : ℚ) ^ c.exponent ≠ 0 := by positivity
    rw [Decimal.number, Decimal.number, ← hn, add_comm, zpow_add₀ (by norm_num), zpow_natCast,
      ← mul_assoc] at heq
    exact_mod_cast mul_right_cancel₀ hpower heq
  cases n with
  | zero =>
    cases c
    cases d
    simp_all
  | succ n =>
    refine absurd ?_ hc
    rw [hdigits, Nat.pow_succ, ← Nat.mul_assoc]
    exact Nat.mul_mod_left _ _

/-- There is only one shortest decimal. -/
theorem IsShortest.unique {k : Nat} {c d : Decimal} (hc : IsShortest k c) (hd : IsShortest k d) :
    c = d := by
  have hlength : decimalLength c.digits = decimalLength d.digits :=
    le_antisymm (hc.fewest d hd.digits_pos hd.rounds) (hd.fewest c hc.digits_pos hc.rounds)
  refine Decimal.eq_of_number_eq hc.reduced hd.reduced ?_
  rcases hc.nearest d hlength.symm hd.rounds with hlt | ⟨heq, hle⟩
  · rcases hd.nearest c hlength hc.rounds with hlt' | ⟨heq', -⟩ <;> linarith
  · rcases hd.nearest c hlength hc.rounds with hlt' | ⟨-, hle'⟩
    · linarith
    · exact le_antisymm hle' hle

/-- Positive magnitude bits have a significand and an exponent. -/
theorem exists_value_ofMagnitude {k : Nat} (negative : Bool) (hpos : 0 < k)
    (hfinite : k < infinityMagnitude) :
    ∃ significand e, (ofMagnitude negative k).value = .finite negative significand e ∧
      0 < significand ∧ (ofMagnitude negative k).magnitude = k := by
  have hbits : k < 2 ^ 63 := hfinite.trans (by decide)
  obtain ⟨significand, e, hvalue, -⟩ := value_of_number? (number?_ofMagnitude hfinite)
  have hmagnitude : (ofMagnitude negative k).magnitude = k := magnitude_ofMagnitude hbits
  rw [isNegative_ofMagnitude hbits] at hvalue
  refine ⟨significand, e, hvalue, ?_, hmagnitude⟩
  obtain ⟨exponent, -, hlow, -, hsum, -⟩ := exists_exponent_of_value hvalue
  omega

/-- The shortest decimal is the one that is computed. -/
theorem IsShortest.exists_eq_shortest {k : Nat} {d : Decimal} (h : IsShortest k d) (negative : Bool)
    (hpos : 0 < k) (hfinite : k < infinityMagnitude) :
    ∃ significand e, (ofMagnitude negative k).value = .finite negative significand e ∧
      0 < significand ∧ d = shortest .up significand e ∧ decimalLength d.digits ≤ 17 := by
  obtain ⟨significand, e, hvalue, hsignificand, hmagnitude⟩ :=
    exists_value_ofMagnitude negative hpos hfinite
  obtain ⟨hshortest, hlength⟩ := isShortest_shortest hvalue hsignificand
  rw [hmagnitude] at hshortest
  obtain rfl := h.unique hshortest
  exact ⟨significand, e, hvalue, hsignificand, rfl, hlength⟩

end FieldVault.Binary64
