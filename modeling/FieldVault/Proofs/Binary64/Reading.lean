import FieldVault.Binary64.Decimal
import FieldVault.Proofs.Binary64.Shortest

/-!
# Reading numerals

A text is read as a double if it is a numeral (`parse?_isSome_iff`): a sign, digits with a point
anywhere among them and an exponent, or the name of a special value. The shortest decimal of a
double, written out, is read as the double again (`parse?_positional`).
-/

set_option autoImplicit false

namespace FieldVault.Binary64

/-! ### Numerals -/

/-- Characters that are digits. -/
def AreDigits (text : List Char) : Prop := ∀ c ∈ text, isDigit c = true

/-- A sign, which may be missing. -/
inductive IsSign : List Char → Prop where
  | none : IsSign []
  | plus : IsSign ['+']
  | minus : IsSign ['-']

/-- The exponent at the end of a numeral, which may be missing. -/
inductive IsExponent : List Char → Prop where
  | none : IsExponent []
  | marked {mark : Char} {sign digits : List Char} (hmark : mark = 'e' ∨ mark = 'E')
      (hsign : IsSign sign) (hne : digits ≠ []) (hdigits : AreDigits digits) :
      IsExponent (mark :: (sign ++ digits))

/-- A numeral in digits, without its sign. -/
inductive IsDecimal : List Char → Prop where
  | whole {digits exponent : List Char} (hne : digits ≠ []) (hdigits : AreDigits digits)
      (hexponent : IsExponent exponent) : IsDecimal (digits ++ exponent)
  | pointed {digits fraction exponent : List Char} (hne : digits ++ fraction ≠ [])
      (hdigits : AreDigits digits) (hfraction : AreDigits fraction)
      (hexponent : IsExponent exponent) : IsDecimal (digits ++ '.' :: (fraction ++ exponent))

/-- The name of a special value, in any case. -/
def IsName (text : List Char) : Prop :=
  String.ofList (text.map Char.toLower) ∈ ["nan", "inf", "infinity"]

/-- The texts that stand for doubles. -/
def IsNumeral (text : String) : Prop :=
  ∃ sign body, text.toList = sign ++ body ∧ IsSign sign ∧ (IsDecimal body ∨ IsName body)

section

variable {text digits fraction exponent rest sign body : List Char} {negative : Bool} {e : Int}

/-- What starts with neither a digit nor a point. -/
def EndsDigits (rest : List Char) : Prop :=
  ∀ c, rest.head? = some c → isDigit c = false ∧ c ≠ '.'

theorem IsExponent.endsDigits (h : IsExponent exponent) : EndsDigits exponent := by
  intro c hc
  cases h with
  | none => cases hc
  | marked hmark =>
    cases hc
    rcases hmark with rfl | rfl <;> decide

theorem takeWhile_append_of_head (hdigits : AreDigits digits)
    (hrest : ∀ c, rest.head? = some c → isDigit c = false) :
    (digits ++ rest).takeWhile isDigit = digits ∧ (digits ++ rest).dropWhile isDigit = rest := by
  rw [List.takeWhile_append_of_pos hdigits, List.dropWhile_append_of_pos hdigits]
  cases rest with
  | nil => simp
  | cons c rest => simp [hrest c rfl]

theorem splitFraction_of_head (hrest : ∀ c, rest.head? = some c → c ≠ '.') :
    splitFraction rest = ([], rest) := by
  unfold splitFraction
  split
  · exact absurd rfl (hrest '.' rfl)
  · rfl

/-- The magnitude of a numeral without a point. -/
theorem parseMagnitude?_whole (hne : digits ≠ []) (hdigits : AreDigits digits)
    (hends : EndsDigits exponent) :
    parseMagnitude? negative (digits ++ exponent) =
      (parseExponent? exponent).map fun e => ofDigits negative digits e := by
  obtain ⟨htake, hdrop⟩ := takeWhile_append_of_head hdigits fun c hc => (hends c hc).1
  have hfraction := splitFraction_of_head fun c hc => (hends c hc).2
  have hnonempty : digits.isEmpty = false := by simpa using hne
  simp [parseMagnitude?, htake, hdrop, hfraction, hnonempty]

/-- The magnitude of a numeral with a point. -/
theorem parseMagnitude?_pointed (hne : digits ++ fraction ≠ []) (hdigits : AreDigits digits)
    (hfraction : AreDigits fraction) (hends : EndsDigits exponent) :
    parseMagnitude? negative (digits ++ '.' :: (fraction ++ exponent)) =
      (parseExponent? exponent).map fun e =>
        ofDigits negative (digits ++ fraction) (e - fraction.length) := by
  have hpoint : ∀ c, ('.' :: (fraction ++ exponent)).head? = some c → isDigit c = false := by
    intro c hc
    cases hc
    decide
  obtain ⟨htake, hdrop⟩ := takeWhile_append_of_head hdigits hpoint
  obtain ⟨htake', hdrop'⟩ := takeWhile_append_of_head hfraction fun c hc => (hends c hc).1
  have hnonempty : (digits ++ fraction).isEmpty = false := by simpa using hne
  simp [parseMagnitude?, htake, hdrop, splitFraction, htake', hdrop', hnonempty]

/-- A sign is split off, whatever follows it, unless it is missing and something that looks like one
follows. -/
theorem splitSign_append (hsign : IsSign sign)
    (hbody : ∀ c, body.head? = some c → c ≠ '-' ∧ c ≠ '+') :
    splitSign (sign ++ body) = (decide (sign = ['-']), body) := by
  cases hsign with
  | plus => rfl
  | minus => rfl
  | none =>
    rw [List.nil_append]
    unfold splitSign
    split
    · exact absurd rfl (hbody '-' rfl).1
    · exact absurd rfl (hbody '+' rfl).2
    · rfl

theorem exists_sign (text : List Char) :
    ∃ sign, IsSign sign ∧ text = sign ++ (splitSign text).2 ∧
      (splitSign text).1 = decide (sign = ['-']) := by
  unfold splitSign
  split
  · exact ⟨['-'], .minus, rfl, rfl⟩
  · exact ⟨['+'], .plus, rfl, rfl⟩
  · exact ⟨[], .none, rfl, rfl⟩

theorem ne_sign_of_isDigit {c : Char} (h : isDigit c = true) : c ≠ '-' ∧ c ≠ '+' := by
  constructor
  · rintro rfl
    cases h
  · rintro rfl
    cases h

theorem AreDigits.ne_sign (hdigits : AreDigits digits) :
    ∀ c, digits.head? = some c → c ≠ '-' ∧ c ≠ '+' :=
  fun _ hc => ne_sign_of_isDigit (hdigits _ (List.mem_of_mem_head? hc))

/-- What is read as an exponent is one. -/
theorem isSome_parseExponent?_iff (text : List Char) :
    (parseExponent? text).isSome ↔ IsExponent text := by
  constructor
  · intro h
    cases text with
    | nil => exact .none
    | cons c rest =>
      obtain ⟨sign, hsign, hrest, -⟩ := exists_sign rest
      rw [parseExponent?] at h
      split at h
      · rename_i hmark
        dsimp only at h
        split at h
        · cases h
        · rename_i hdigits
          rw [not_or, List.isEmpty_iff, Bool.not_eq_true', Bool.not_eq_false, List.all_eq_true]
            at hdigits
          rw [hrest]
          exact .marked hmark hsign hdigits.1 hdigits.2
      · cases h
  · intro h
    cases h with
    | none => rfl
    | @marked mark sign digits hmark hsign hne hdigits =>
      have hall : digits.all isDigit = true := List.all_eq_true.2 hdigits
      rw [parseExponent?, if_pos hmark, splitSign_append hsign hdigits.ne_sign]
      simp [hne, hall]

/-- What is read as a numeral in digits is one. -/
theorem isSome_parseMagnitude?_iff :
    (parseMagnitude? negative text).isSome ↔ IsDecimal text := by
  constructor
  · intro h
    have htext : text.takeWhile isDigit ++ text.dropWhile isDigit = text :=
      List.takeWhile_append_dropWhile
    have hdigits : AreDigits (text.takeWhile isDigit) :=
      fun c hc => List.all_eq_true.1 List.all_takeWhile c hc
    rw [parseMagnitude?] at h
    dsimp only at h
    split at h
    · cases h
    · rename_i hne
      rw [List.isEmpty_iff] at hne
      rw [Option.isSome_map, isSome_parseExponent?_iff] at h
      rw [← htext]
      generalize text.takeWhile isDigit = digits at *
      generalize text.dropWhile isDigit = rest at *
      by_cases hpoint : ∃ after, rest = '.' :: after
      · obtain ⟨after, rfl⟩ := hpoint
        have hfraction : AreDigits (after.takeWhile isDigit) :=
          fun c hc => List.all_eq_true.1 List.all_takeWhile c hc
        have hafter : after.takeWhile isDigit ++ after.dropWhile isDigit = after :=
          List.takeWhile_append_dropWhile
        rw [← hafter]
        exact .pointed hne hdigits hfraction h
      · have hhead : ∀ c, rest.head? = some c → c ≠ '.' := by
          rintro c hc rfl
          exact hpoint (List.head?_eq_some_iff.1 hc)
        rw [splitFraction_of_head hhead] at h hne
        rw [List.append_nil] at hne
        exact .whole hne hdigits h
  · intro h
    cases h with
    | whole hne hdigits hexponent =>
      rw [parseMagnitude?_whole hne hdigits hexponent.endsDigits, Option.isSome_map]
      exact (isSome_parseExponent?_iff _).2 hexponent
    | pointed hne hdigits hfraction hexponent =>
      rw [parseMagnitude?_pointed hne hdigits hfraction hexponent.endsDigits, Option.isSome_map]
      exact (isSome_parseExponent?_iff _).2 hexponent

theorem isSome_parseName?_iff : (parseName? negative text).isSome ↔ IsName text := by
  rw [parseName?, IsName]
  split
  · simp [*]
  · split
    · simp [*]
    · simp_all

theorem IsDecimal.ne_sign (h : IsDecimal body) : ∀ c, body.head? = some c → c ≠ '-' ∧ c ≠ '+' := by
  intro c hc
  cases h with
  | @whole digits exponent hne hdigits =>
    rw [List.head?_append_of_ne_nil _ hne] at hc
    exact hdigits.ne_sign c hc
  | @pointed digits fraction exponent hne hdigits =>
    cases digits with
    | nil =>
      cases hc
      decide
    | cons first digits => exact hdigits.ne_sign c hc

theorem IsName.ne_sign (h : IsName body) : ∀ c, body.head? = some c → c ≠ '-' ∧ c ≠ '+' := by
  intro c hc
  obtain ⟨rest, rfl⟩ := List.head?_eq_some_iff.1 hc
  constructor
  all_goals
    rintro rfl
    rw [IsName, List.map_cons] at h
    simp [← String.toList_inj] at h

/-- The texts that are read as doubles are the numerals. -/
theorem isSome_parse?_iff (text : String) : (parse? text).isSome ↔ IsNumeral text := by
  rw [parse?, Option.isSome_or, Bool.or_eq_true, isSome_parseMagnitude?_iff, isSome_parseName?_iff]
  constructor
  · intro h
    obtain ⟨sign, hsign, htext, -⟩ := exists_sign text.toList
    exact ⟨sign, _, htext, hsign, h⟩
  · rintro ⟨sign, body, htext, hsign, h⟩
    rw [htext, splitSign_append hsign (h.elim IsDecimal.ne_sign IsName.ne_sign)]
    exact h

end

/-! ### The value of digits -/

theorem digitsValue_cons (c : Char) (digits : List Char) :
    digitsValue (c :: digits) = 10 ^ digits.length * (c.toNat - 48) + digitsValue digits := by
  change Nat.ofDigitChars 10 (c :: digits) 0 = _ + Nat.ofDigitChars 10 digits 0
  rw [Nat.ofDigitChars_cons, Nat.ofDigitChars_eq_ofDigitChars_zero, Nat.mul_zero, Nat.zero_add]
  rfl

theorem digitsValue_lt {digits : List Char} (h : AreDigits digits) :
    digitsValue digits < 10 ^ digits.length := by
  induction digits with
  | nil => decide
  | cons c digits ih =>
    have hrest := ih fun d hd => h d (List.mem_cons_of_mem c hd)
    have hc : c.toNat - 48 ≤ 9 := by
      have hdigit := h c List.mem_cons_self
      rw [isDigit, Bool.and_eq_true, decide_eq_true_eq, decide_eq_true_eq] at hdigit
      have hle : c.toNat ≤ 57 := hdigit.2
      omega
    rw [digitsValue_cons, List.length_cons, Nat.pow_succ]
    calc 10 ^ digits.length * (c.toNat - 48) + digitsValue digits
        < 10 ^ digits.length * 9 + 10 ^ digits.length :=
          Nat.add_lt_add_of_le_of_lt (Nat.mul_le_mul_left _ hc) hrest
      _ = 10 ^ digits.length * 10 := by ring

theorem digitsValue_dropWhile (digits : List Char) :
    digitsValue (digits.dropWhile (· = '0')) = digitsValue digits := by
  induction digits with
  | nil => rfl
  | cons c digits ih =>
    rw [List.dropWhile_cons]
    split
    · rename_i hzero
      rw [ih, digitsValue_cons, of_decide_eq_true hzero]
      simp
    · rfl

/-! ### Decimals within the range of the doubles -/

section

variable {t : ℚ} {k : Nat}

theorem two_zpow_lt_ten_zpow {i j : Int} (hi : 0 < j) (hij : i ≤ 3 * j) :
    (2 : ℚ) ^ i < 10 ^ j := by
  calc (2 : ℚ) ^ i ≤ 2 ^ (3 * j) := zpow_le_zpow_right₀ one_le_two hij
    _ = 8 ^ j := by rw [zpow_mul]; norm_num
    _ < 10 ^ j := zpow_lt_zpow_left₀ hi (by norm_num) (by norm_num)

theorem numberOf_infinityMagnitude : numberOf infinityMagnitude = 2 ^ (1024 : Int) := by
  have hsum : infinityMagnitude = 2046 * 2 ^ 52 + 2 ^ 52 := by decide
  rw [hsum, numberOf_add (.inr le_rfl) (by decide), minExponent]
  rw [Nat.cast_pow, Nat.cast_ofNat, ← zpow_natCast, ← zpow_add₀ two_ne_zero]
  rfl

/-- What is rounded to a finite double is far below the decimals that are taken for infinite. -/
theorem Nearest.lt_ten_zpow (h : Nearest t k) (hfinite : k < infinityMagnitude) :
    t < 10 ^ (decimalRange + 1) := by
  have hk : numberOf k ≤ numberOf infinityMagnitude := numberOf_strictMono.monotone hfinite.le
  have hnext : numberOf (k + 1) ≤ numberOf infinityMagnitude :=
    numberOf_strictMono.monotone hfinite
  calc t ≤ numberOf infinityMagnitude := by linarith only [h.two_mul_le, hk, hnext]
    _ = 2 ^ (1024 : Int) := numberOf_infinityMagnitude
    _ < 10 ^ (decimalRange + 1) := two_zpow_lt_ten_zpow (by decide) (by decide)

/-- What is rounded to a positive double is far above the decimals that are taken for zero. -/
theorem Nearest.ten_zpow_lt (h : Nearest t k) (hpos : 0 < k) :
    10 ^ (-(decimalRange + 1)) < t := by
  obtain ⟨j, rfl⟩ : ∃ j, k = j + 1 := Nat.exists_eq_succ_of_ne_zero hpos.ne'
  have hone : numberOf (0 * 2 ^ 52 + 1) = 2 ^ (-1074 : Int) := by
    rw [numberOf_add (.inl rfl) (by decide), minExponent]
    simp
  have hleast : numberOf (0 * 2 ^ 52 + 1) ≤ numberOf (j + 1) :=
    numberOf_strictMono.monotone (by omega)
  have hsmall : (10 : ℚ) ^ (-(decimalRange + 1)) < 2 ^ (-1075 : Int) := by
    rw [zpow_neg, zpow_neg, inv_lt_inv₀ (by positivity) (by positivity)]
    exact two_zpow_lt_ten_zpow (by decide) (by decide)
  have hhalf : (2 : ℚ) ^ (-1074 : Int) = 2 * 2 ^ (-1075 : Int) := by
    rw [← zpow_one_add₀ two_ne_zero]
    rfl
  rw [hone, hhalf] at hleast
  refine hsmall.trans_le ?_
  linarith only [h.le_two_mul, hleast, numberOf_nonneg j]

/-- The double of a decimal is the one it is rounded to. -/
theorem ofDecimal_eq {negative : Bool} {digits length : Nat} {exponent : Int}
    (hlength : digits < 10 ^ length) (h : Nearest (digits * 10 ^ exponent) k) (hpos : 0 < k)
    (hfinite : k < infinityMagnitude) :
    ofDecimal negative digits length exponent = ofMagnitude negative k := by
  have hlow := h.ten_zpow_lt hpos
  have hhigh := h.lt_ten_zpow hfinite
  have hpower : (0 : ℚ) < 10 ^ exponent := by positivity
  have hdigits : 0 < digits := by
    refine Nat.pos_of_ne_zero fun hzero => ?_
    rw [hzero, Nat.cast_zero, zero_mul] at hlow
    exact absurd hlow (not_lt.2 (by positivity))
  have hleast : ¬ exponent + length < -decimalRange := by
    intro hless
    have hlength' : (digits : ℚ) < 10 ^ length := by exact_mod_cast hlength
    have hvalue : (digits * 10 ^ exponent : ℚ) < 10 ^ (exponent + length) := by
      rw [add_comm, zpow_add₀ (by norm_num), zpow_natCast]
      exact mul_lt_mul_of_pos_right hlength' hpower
    have hexponent : -(decimalRange + 1) < exponent + length :=
      (zpow_lt_zpow_iff_right₀ (by norm_num)).1 (hlow.trans hvalue)
    omega
  have hgreatest : ¬ decimalRange + length < exponent := by
    intro hgreater
    have hone : (1 : ℚ) ≤ digits := by exact_mod_cast hdigits
    have hexponent : exponent < decimalRange + 1 :=
      (zpow_lt_zpow_iff_right₀ (by norm_num)).1
        ((le_mul_of_one_le_left hpower.le hone).trans_lt hhigh)
    omega
  have hdenominator : 0 < Nat.pow 10 (-exponent).toNat := Nat.pow_pos (by decide)
  obtain ⟨j, hj, hrounded⟩ := exists_nearest_ofRatio negative
    (digits * Nat.pow 10 exponent.toNat) hdenominator
  have hquotient : ((digits * Nat.pow 10 exponent.toNat : Nat) /
      (Nat.pow 10 (-exponent).toNat : Nat) : ℚ) = digits * 10 ^ exponent := by
    rw [Nat.pow_eq, Nat.pow_eq]
    push_cast
    rw [pow_toNat (by norm_num), ← mul_assoc, mul_div_cancel_right₀ _ (by positivity)]
  rw [hquotient] at hj
  rw [ofDecimal, if_neg hdigits.ne', if_neg hleast, if_neg hgreatest, hrounded, hj.unique h,
    min_eq_left hfinite.le]

/-- The double of digits is the one that they are rounded to, if there are no more of them than are
looked at. -/
theorem ofDigits_eq {negative : Bool} {digits : List Char} {exponent : Int}
    (hdigits : AreDigits digits)
    (hlength : (digits.dropWhile (· = '0')).length ≤ decisiveDigits)
    (h : Nearest (digitsValue digits * 10 ^ exponent) k) (hpos : 0 < k)
    (hfinite : k < infinityMagnitude) :
    ofDigits negative digits exponent = ofMagnitude negative k := by
  have hrest : AreDigits (digits.dropWhile (· = '0')) :=
    fun c hc => hdigits c ((List.dropWhile_sublist _).subset hc)
  have hlt := digitsValue_lt hrest
  rw [ofDigits]
  simp only [List.take_of_length_le hlength, List.drop_of_length_le hlength, List.all_nil, if_true,
    List.length_nil, Nat.cast_zero, add_zero]
  rw [digitsValue_dropWhile] at hlt ⊢
  exact ofDecimal_eq hlt h hpos hfinite

end

/-! ### Decimals that are written out -/

theorem areDigits_toDigits (n : Nat) : AreDigits (Nat.toDigits 10 n) :=
  fun _ hc => Nat.isDigit_of_mem_toDigits (by decide) (by decide) hc

theorem areDigits_replicate (n : Nat) : AreDigits (List.replicate n '0') := by
  intro c hc
  rw [List.eq_of_mem_replicate hc]
  rfl

theorem digitsValue_toDigits (n : Nat) : digitsValue (Nat.toDigits 10 n) = n :=
  Nat.ofDigitChars_ten_toDigits

/-- Zeros at the end multiply by powers of ten. -/
theorem toDigits_append_replicate {n : Nat} (hn : 0 < n) (e : Nat) :
    Nat.toDigits 10 n ++ List.replicate e '0' = Nat.toDigits 10 (n * 10 ^ e) := by
  induction e with
  | zero => simp
  | succ e ih =>
    have hpos : 0 < n * 10 ^ e := Nat.mul_pos hn (Nat.pow_pos (by decide))
    have hzero : Nat.toDigits 10 0 = ['0'] := Nat.toDigits_zero 10
    rw [List.replicate_succ', ← List.append_assoc, ih, ← hzero,
      Nat.toDigits_append_toDigits (by decide) hpos (by decide), Nat.add_zero, Nat.pow_succ]
    congr 1
    ring

/-- Zeros in front change nothing. -/
theorem digitsValue_replicate_append (n : Nat) (digits : List Char) :
    digitsValue (List.replicate n '0' ++ digits) = digitsValue digits := by
  change Nat.ofDigitChars 10 (List.replicate n '0' ++ digits) 0 = Nat.ofDigitChars 10 digits 0
  rw [Nat.ofDigitChars_append, Nat.ofDigitChars_replicate_zero, Nat.mul_zero]

theorem toList_positional_of_nonneg {d : Decimal} (hpos : 0 < d.digits) (he : 0 ≤ d.exponent) :
    (positional false d).toList = Nat.toDigits 10 (d.digits * 10 ^ d.exponent.toNat) := by
  rw [positional, if_pos he, ← toDigits_append_replicate hpos]
  simp

/-- Below the units a decimal is written with a point and at least one digit before it. -/
theorem exists_positional_of_neg {d : Decimal} (he : d.exponent < 0) :
    ∃ digits fraction, (positional false d).toList = digits ++ '.' :: fraction ∧ digits ≠ [] ∧
      AreDigits digits ∧ AreDigits fraction ∧ (fraction.length : Int) = -d.exponent ∧
      digitsValue (digits ++ fraction) = d.digits ∧
      ((digits ++ fraction).dropWhile (· = '0')).length ≤ (Nat.toDigits 10 d.digits).length := by
  obtain ⟨places, hplaces⟩ : ∃ places : Nat, d.exponent = -(places : Int) :=
    ⟨(-d.exponent).toNat, by omega⟩
  rw [positional, if_neg (not_le.2 he), hplaces, neg_neg, Int.toNat_natCast]
  dsimp only
  generalize hpadded : List.replicate (places + 1 - (Nat.toDigits 10 d.digits).length) '0' ++
    Nat.toDigits 10 d.digits = padded
  have hlength : places + 1 ≤ padded.length := by
    rw [← hpadded, List.length_append, List.length_replicate]
    omega
  have hdigits : AreDigits padded := by
    intro c hc
    rw [← hpadded, List.mem_append] at hc
    exact hc.elim (areDigits_replicate _ c) (areDigits_toDigits _ c)
  refine ⟨padded.take (padded.length - places), padded.drop (padded.length - places), ?_, ?_,
    fun c hc => hdigits c (List.mem_of_mem_take hc),
    fun c hc => hdigits c (List.mem_of_mem_drop hc), ?_, ?_, ?_⟩
  · simp
  · refine List.ne_nil_of_length_pos ?_
    rw [List.length_take]
    omega
  · rw [List.length_drop]
    omega
  · rw [List.take_append_drop, ← hpadded, digitsValue_replicate_append, digitsValue_toDigits]
  · rw [List.take_append_drop, ← hpadded, List.dropWhile_append_of_pos fun c hc => by
      rw [List.eq_of_mem_replicate hc]
      rfl]
    exact (List.dropWhile_sublist _).length_le

theorem parse?_signed {negative : Bool} {body : String}
    (hbody : ∀ c, body.toList.head? = some c → c ≠ '-' ∧ c ≠ '+') :
    parse? ((if negative then "-" else "") ++ body) =
      (parseMagnitude? negative body.toList).or (parseName? negative body.toList) := by
  have hsplit : splitSign ((if negative then "-" else "") ++ body).toList =
      (negative, body.toList) := by
    cases negative with
    | false => simpa using splitSign_append .none hbody
    | true => simp [splitSign]
  rw [parse?, hsplit]

/-- Digits after a sign are read as they stand. -/
theorem parse?_whole {negative : Bool} {body : String} {digits : List Char}
    (htext : body.toList = digits) (hne : digits ≠ []) (hdigits : AreDigits digits) :
    parse? ((if negative then "-" else "") ++ body) = some (ofDigits negative digits 0) := by
  have hmagnitude : parseMagnitude? negative (digits ++ []) = _ :=
    parseMagnitude?_whole hne hdigits IsExponent.none.endsDigits
  rw [List.append_nil] at hmagnitude
  rw [parse?_signed (htext ▸ hdigits.ne_sign), htext, hmagnitude, parseExponent?, Option.map_some,
    Option.some_or]

/-- Digits with a point among them are read without it, that many places lower. -/
theorem parse?_pointed {negative : Bool} {body : String} {digits fraction : List Char}
    (htext : body.toList = digits ++ '.' :: fraction) (hne : digits ≠ [])
    (hdigits : AreDigits digits) (hfraction : AreDigits fraction) :
    parse? ((if negative then "-" else "") ++ body) =
      some (ofDigits negative (digits ++ fraction) (0 - fraction.length)) := by
  have hne' : digits ++ fraction ≠ [] := List.append_ne_nil_of_left_ne_nil hne fraction
  have hhead := IsDecimal.ne_sign (.pointed hne' hdigits hfraction .none)
  have hmagnitude : parseMagnitude? negative (digits ++ '.' :: (fraction ++ [])) = _ :=
    parseMagnitude?_pointed hne' hdigits hfraction IsExponent.none.endsDigits
  rw [List.append_nil] at hhead hmagnitude
  rw [parse?_signed (htext ▸ hhead), htext, hmagnitude, parseExponent?, Option.map_some,
    Option.some_or]

/-- The shortest decimal of a double, written out, is read as the double. -/
theorem parse?_positional {negative : Bool} {k : Nat} {d : Decimal} (h : IsShortest k d)
    (hpos : 0 < k) (hfinite : k < infinityMagnitude) :
    parse? ((if negative then "-" else "") ++ positional false d) =
      some (ofMagnitude negative k) := by
  have hnear := h.rounds
  have hdigits := h.digits_pos
  obtain ⟨-, -, -, -, -, hlength⟩ := h.exists_eq_shortest negative hpos hfinite
  -- with places there are at most seventeen digits to look at, without them the number bounds them
  obtain he | he := lt_or_ge d.exponent 0
  · obtain ⟨digits, fraction, htext, hne, hwhole, hfraction, hplaces, hvalue, hzeros⟩ :=
      exists_positional_of_neg he
    have hexponent : (0 : Int) - fraction.length = d.exponent := by omega
    have hdecisive : ((digits ++ fraction).dropWhile (· = '0')).length ≤ decisiveDigits := by
      rw [decimalLength, if_neg hdigits.ne'] at hlength
      exact hzeros.trans (hlength.trans (by decide))
    rw [parse?_pointed htext hne hwhole hfraction, hexponent]
    refine congrArg some (ofDigits_eq ?_ hdecisive ?_ hpos hfinite)
    · intro c hc
      exact (List.mem_append.1 hc).elim (hwhole c) (hfraction c)
    · rw [hvalue]
      exact hnear
  · have hall := areDigits_toDigits (d.digits * 10 ^ d.exponent.toNat)
    have hnumber : d.number = (d.digits * 10 ^ d.exponent.toNat : Nat) := by
      obtain ⟨zeros, hzeros⟩ := Int.eq_ofNat_of_zero_le he
      rw [Decimal.number, hzeros, zpow_natCast]
      push_cast
      rfl
    rw [hnumber] at hnear
    rw [parse?_whole (toList_positional_of_nonneg hdigits he) Nat.toDigits_ne_nil hall]
    refine congrArg some (ofDigits_eq hall ?_ ?_ hpos hfinite)
    · obtain ⟨range, hrange, hpositive, hdecisive⟩ :
          ∃ range : Nat, decimalRange + 1 = range ∧ 0 < range ∧ range ≤ decisiveDigits :=
        ⟨401, rfl, by decide, by decide⟩
      have hlt : d.digits * 10 ^ d.exponent.toNat < 10 ^ range := by
        have hrat := hnear.lt_ten_zpow hfinite
        rw [hrange, zpow_natCast] at hrat
        exact_mod_cast hrat
      have hle := (Nat.length_toDigits_le_iff (by decide) hpositive).2 hlt
      exact (List.dropWhile_sublist _).length_le.trans (hle.trans hdecisive)
    · rw [digitsValue_toDigits, zpow_zero, mul_one]
      exact hnear

end FieldVault.Binary64
