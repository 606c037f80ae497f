import FieldVault.Proofs.Binary64.Reading
import FieldVault.Proofs.Settings

/-!
# Settings that are texts

Every setting is guessed to be a truth value or a number if it looks like one, also where a text is
wanted, and is then written out again. So a text is kept just if it is the way in which its value is
written (`IsKept`): a truth value in lower case, a whole number without leading zeros, the shortest
decimal of a double, or no notation of any such value (`toText_ofText_iff`).
-/

set_option autoImplicit false

namespace FieldVault.Settings

open Binary64

/-! ### Texts that are kept -/

/-- The texts that are read back as they were given. -/
inductive IsKept : String → Prop where
  | word {text : String} (h : text ∈ ["true", "false", "NaN", "inf", "-inf"]) : IsKept text
  | integer {i : Int} (hlow : -2 ^ 63 ≤ i) (hhigh : i < 2 ^ 63) : IsKept (toString i)
  | double {negative : Bool} {k : Nat} {d : Decimal} (hpos : 0 < k)
      (hfinite : k < infinityMagnitude) (h : IsShortest k d) :
      IsKept ((if negative then "-" else "") ++ positional false d)
  | other {text : String} (hflag : lowercase text ∉ ["true", "false"])
      (hnumeral : ¬ IsNumeral text) : IsKept text

/-! ### Whole numbers -/

theorem boundedValue_eq (limit : Nat) (digits : List Char) :
    boundedValue limit digits = min (digitsValue digits) limit := by
  -- the value so far and the one cut off at the limit stay in step
  have hfrom : ∀ m n, n = min m limit →
      digits.foldl (fun n c => min (10 * n + (c.toNat - 48)) limit) n =
        min (digits.foldl (fun n c => 10 * n + (c.toNat - 48)) m) limit := by
    induction digits with
    | nil => exact fun m n h => h
    | cons c digits ih =>
      intro m n h
      refine ih _ _ ?_
      dsimp only
      omega
  exact hfrom 0 0 (by simp)

/-- Whole numbers of 64 bits with sign are read from their digits. -/
theorem parseInteger?_eq {text : String} {sign digits : List Char} (hsign : IsSign sign)
    (htext : text.toList = sign ++ digits) (hne : digits ≠ []) (hdigits : AreDigits digits) :
    parseInteger? text =
      if sign = ['-'] then
        if digitsValue digits ≤ 2 ^ 63 then some (-(digitsValue digits : Int)) else none
      else if digitsValue digits < 2 ^ 63 then some (digitsValue digits : Int) else none := by
  have hall : digits.all isDigit = true := List.all_eq_true.2 hdigits
  rw [parseInteger?, htext, splitSign_append hsign hdigits.ne_sign]
  dsimp only
  rw [if_neg (by simp [hne, hall]), boundedValue_eq]
  -- what is cut off at the bound is out of range in any case
  have hle : min (digitsValue digits) (1 <<< 64) ≤ 1 <<< 63 ↔ digitsValue digits ≤ 2 ^ 63 := by
    omega
  have hlt : min (digitsValue digits) (1 <<< 64) < 1 <<< 63 ↔ digitsValue digits < 2 ^ 63 := by
    omega
  simp only [hle, hlt, decide_eq_true_eq]
  split
  · split
    · rw [min_eq_left (by omega)]
    · rfl
  · split
    · rw [min_eq_left (by omega)]
    · rfl

theorem exists_digits_of_parseInteger? {text : String} (h : (parseInteger? text).isSome) :
    ∃ sign digits, IsSign sign ∧ text.toList = sign ++ digits ∧ digits ≠ [] ∧ AreDigits digits := by
  obtain ⟨sign, hsign, htext, -⟩ := exists_sign text.toList
  refine ⟨sign, _, hsign, htext, ?_⟩
  rw [parseInteger?] at h
  dsimp only at h
  split at h
  · cases h
  · rename_i hdigits
    rw [not_or, List.isEmpty_iff, Bool.not_eq_true', Bool.not_eq_false, List.all_eq_true] at hdigits
    exact hdigits

theorem toList_toString (i : Int) :
    (toString i).toList = (if i < 0 then ['-'] else []) ++ Nat.toDigits 10 i.natAbs := by
  cases i with
  | ofNat n => exact Nat.toList_repr
  | negSucc n =>
    rw [if_pos (Int.negSucc_lt_zero n)]
    exact String.toList_append.trans (congrArg _ Nat.toList_repr)

theorem parseInteger?_toString (i : Int) :
    parseInteger? (toString i) = if -2 ^ 63 ≤ i ∧ i < 2 ^ 63 then some i else none := by
  have hdigits := areDigits_toDigits i.natAbs
  have htext := toList_toString i
  by_cases hnegative : i < 0
  · rw [if_pos hnegative] at htext
    rw [parseInteger?_eq .minus htext Nat.toDigits_ne_nil hdigits, digitsValue_toDigits, if_pos rfl]
    split
    · rw [if_pos (by omega)]
      congr 1
      omega
    · rw [if_neg (by omega)]
  · rw [if_neg hnegative] at htext
    rw [parseInteger?_eq .none htext Nat.toDigits_ne_nil hdigits, digitsValue_toDigits,
      if_neg (by decide)]
    split
    · rw [if_pos (by omega)]
      congr 1
      omega
    · rw [if_neg (by omega)]

theorem bounds_of_parseInteger? {text : String} {i : Int} (h : parseInteger? text = some i) :
    -2 ^ 63 ≤ i ∧ i < 2 ^ 63 := by
  obtain ⟨sign, digits, hsign, htext, hne, hdigits⟩ :=
    exists_digits_of_parseInteger? (Option.isSome_of_eq_some h)
  rw [parseInteger?_eq hsign htext hne hdigits] at h
  split at h
  · split at h
    · cases h
      omega
    · cases h
  · split at h
    · cases h
      omega
    · cases h

theorem isNumeral_of_parseInteger? {text : String} (h : (parseInteger? text).isSome) :
    IsNumeral text := by
  obtain ⟨sign, digits, hsign, htext, hne, hdigits⟩ := exists_digits_of_parseInteger? h
  refine ⟨sign, digits, htext, hsign, .inl ?_⟩
  rw [← List.append_nil digits]
  exact .whole hne hdigits .none

/-- A numeral with a point is not read as a whole number. -/
theorem parseInteger?_of_point {text : String} (h : '.' ∈ text.toList) :
    parseInteger? text = none := by
  rw [← Option.not_isSome_iff_eq_none]
  intro hsome
  obtain ⟨sign, digits, hsign, htext, -, hdigits⟩ := exists_digits_of_parseInteger? hsome
  rw [htext, List.mem_append] at h
  rcases h with h | h
  · cases hsign <;> simp at h
  · cases hdigits '.' h

/-! ### Reading and writing -/

/-- What starts with a digit or a minus sign is no truth value. -/
theorem lowercase_notMem_of_head {text : String} {c : Char} (h : text.toList.head? = some c)
    (hc : isDigit c = true ∨ c = '-') : lowercase text ∉ ["true", "false"] := by
  have hcode : c.toNat < 58 := by
    rcases hc with hdigit | rfl
    · rw [isDigit, Bool.and_eq_true, decide_eq_true_eq, decide_eq_true_eq] at hdigit
      have hle : c.toNat ≤ 57 := hdigit.2
      omega
    · decide
  have hlower : ∀ n < 58, (Char.ofNat n).toLower ≠ 't' ∧ (Char.ofNat n).toLower ≠ 'f' := by decide
  have hfirst := hlower c.toNat hcode
  rw [Char.ofNat_toNat] at hfirst
  obtain ⟨rest, hrest⟩ := List.head?_eq_some_iff.1 h
  rw [lowercase, hrest]
  simp [← String.toList_inj, hfirst]

theorem lowercase_notMem_of_digits {text : String} {sign digits rest : List Char}
    (hsign : sign = [] ∨ sign = ['-']) (hne : digits ≠ []) (hdigits : AreDigits digits)
    (htext : text.toList = sign ++ (digits ++ rest)) : lowercase text ∉ ["true", "false"] := by
  obtain ⟨first, others, rfl⟩ := List.exists_cons_of_ne_nil hne
  rcases hsign with rfl | rfl
  · refine lowercase_notMem_of_head (c := first) ?_ (.inl (hdigits first List.mem_cons_self))
    rw [htext]
    rfl
  · refine lowercase_notMem_of_head (c := '-') ?_ (.inr rfl)
    rw [htext]
    rfl

theorem ofText_of_parseInteger? {text : String} {i : Int}
    (hflag : lowercase text ∉ ["true", "false"]) (h : parseInteger? text = some i) :
    Value.ofText text = .integer i := by
  simp only [List.mem_cons, List.not_mem_nil, or_false, not_or] at hflag
  rw [Value.ofText, if_neg hflag.1, if_neg hflag.2, h]

theorem ofText_of_parse? {text : String} {x : Binary64}
    (hflag : lowercase text ∉ ["true", "false"]) (hinteger : parseInteger? text = none)
    (h : parse? text = some x) : Value.ofText text = .double x := by
  simp only [List.mem_cons, List.not_mem_nil, or_false, not_or] at hflag
  rw [Value.ofText, if_neg hflag.1, if_neg hflag.2, hinteger, h]

/-- Doubles are written out in their shortest decimal. -/
theorem render_of_value {x : Binary64} {negative : Bool} {significand : Nat} {e : Int}
    (h : x.value = .finite negative significand e) (hpos : 0 < significand) :
    Value.doubleLayout.render x =
      (if negative then "-" else "") ++ positional false (shortest .up significand e) := by
  rw [Layout.render, h]
  simp only [if_neg hpos.ne']
  rfl

/-- The text of a double is kept, unless it is that of a zero, which is read as a whole number. -/
theorem isKept_render {x : Binary64} (h : parseInteger? (Value.doubleLayout.render x) = none) :
    IsKept (Value.doubleLayout.render x) := by
  cases hvalue : x.value with
  | nan =>
    rw [Layout.render, hvalue]
    exact .word (by decide)
  | infinite negative =>
    rw [Layout.render, hvalue]
    cases negative with
    | false => exact .word (by decide)
    | true => exact .word (by decide)
  | finite negative significand e =>
    obtain rfl | hpos := Nat.eq_zero_or_pos significand
    · have hzero : Value.doubleLayout.render x = if negative then "-0" else "0" := by
        rw [Layout.render, hvalue]
        cases negative <;> rfl
      have hread : ∀ negative : Bool, parseInteger? (if negative then "-0" else "0") ≠ none := by
        decide
      rw [hzero] at h
      exact absurd h (hread negative)
    · obtain ⟨exponent, -, hlow, -, hmagnitude, hfinite, -⟩ := exists_exponent_of_value hvalue
      rw [render_of_value hvalue hpos]
      exact .double (by omega) hfinite (isShortest_shortest hvalue hpos).1

/-- A text that is read back as it was given is kept. -/
theorem isKept_of_toText_ofText {text : String} (h : (Value.ofText text).toText = text) :
    IsKept text := by
  rw [Value.ofText] at h
  split at h
  · subst h
    exact .word (by decide)
  · rename_i htrue
    split at h
    · subst h
      exact .word (by decide)
    · rename_i hfalse
      split at h
      · rename_i i hinteger
        obtain ⟨hlow, hhigh⟩ := bounds_of_parseInteger? hinteger
        subst h
        exact .integer hlow hhigh
      · rename_i hinteger
        split at h
        · rename_i x hdouble
          change Value.doubleLayout.render x = text at h
          subst h
          exact isKept_render hinteger
        · rename_i hdouble
          refine .other (by simp [htrue, hfalse]) ?_
          rw [← isSome_parse?_iff, hdouble]
          exact Bool.false_ne_true

theorem toList_signed (negative : Bool) (body : String) :
    ((if negative then "-" else "") ++ body).toList =
      (if negative then ['-'] else []) ++ body.toList := by
  cases negative <;> simp

/-- A decimal without places is written as a whole number. -/
theorem exists_toString_eq {d : Decimal} (negative : Bool) (hpos : 0 < d.digits)
    (he : 0 ≤ d.exponent) :
    ∃ i : Int, (if negative then "-" else "") ++ positional false d = toString i := by
  have hpositive : 0 < d.digits * 10 ^ d.exponent.toNat :=
    Nat.mul_pos hpos (Nat.pow_pos (by decide))
  have htext := toList_positional_of_nonneg hpos he
  generalize d.digits * 10 ^ d.exponent.toNat = n at hpositive htext
  refine ⟨if negative then -n else n, ?_⟩
  rw [← String.toList_inj, toList_signed, toList_toString, htext]
  cases negative with
  | false => simp
  | true => simp [hpositive]

theorem lowercase_toString_notMem (i : Int) : lowercase (toString i) ∉ ["true", "false"] := by
  have htext := toList_toString i
  rw [← List.append_nil (Nat.toDigits 10 i.natAbs)] at htext
  refine lowercase_notMem_of_digits ?_ Nat.toDigits_ne_nil (areDigits_toDigits _) htext
  split <;> simp

/-- The text of a whole number is read back, if it is read as a whole number. -/
theorem toText_ofText_toString {i : Int} (hlow : -2 ^ 63 ≤ i) (hhigh : i < 2 ^ 63) :
    (Value.ofText (toString i)).toText = toString i := by
  have hinteger := parseInteger?_toString i
  rw [if_pos ⟨hlow, hhigh⟩] at hinteger
  rw [ofText_of_parseInteger? (lowercase_toString_notMem i) hinteger]
  rfl

/-- The shortest decimal of a double is read back, be it as a double or as a whole number. -/
theorem toText_ofText_positional {negative : Bool} {k : Nat} {d : Decimal} (hpos : 0 < k)
    (hfinite : k < infinityMagnitude) (h : IsShortest k d) :
    let text := (if negative then "-" else "") ++ positional false d
    (Value.ofText text).toText = text := by
  intro text
  have hdouble : parse? text = some (ofMagnitude negative k) := parse?_positional h hpos hfinite
  have hrender : Value.doubleLayout.render (ofMagnitude negative k) = text := by
    obtain ⟨significand, e, hvalue, hsignificand, rfl, -⟩ :=
      h.exists_eq_shortest negative hpos hfinite
    exact render_of_value hvalue hsignificand
  have hsign : (if negative then ['-'] else []) = [] ∨
      (if negative then ['-'] else []) = ['-'] := by
    cases negative <;> simp
  obtain he | he := lt_or_ge d.exponent 0
  · obtain ⟨digits, fraction, hbody, hne, hdigits, -⟩ := exists_positional_of_neg he
    have htext : text.toList = _ := (toList_signed negative _).trans (congrArg _ hbody)
    have hpoint : '.' ∈ text.toList := by
      rw [htext]
      simp
    rw [ofText_of_parse? (lowercase_notMem_of_digits hsign hne hdigits htext)
      (parseInteger?_of_point hpoint) hdouble]
    exact hrender
  · obtain ⟨i, hi⟩ := exists_toString_eq negative h.digits_pos he
    change text = toString i at hi
    -- beyond 64 bits a whole number is read as a double after all
    by_cases hrange : -2 ^ 63 ≤ i ∧ i < 2 ^ 63
    · rw [hi]
      exact toText_ofText_toString hrange.1 hrange.2
    · have hinteger := parseInteger?_toString i
      have hflag := lowercase_toString_notMem i
      rw [← hi] at hflag hinteger
      rw [if_neg hrange] at hinteger
      rw [ofText_of_parse? hflag hinteger hdouble]
      exact hrender

/-- Texts are read back as they were given just if they are kept. -/
theorem toText_ofText_iff (text : String) : (Value.ofText text).toText = text ↔ IsKept text := by
  constructor
  · exact isKept_of_toText_ofText
  · intro h
    cases h with
    | word hword =>
      simp only [List.mem_cons, List.not_mem_nil, or_false] at hword
      rcases hword with rfl | rfl | rfl | rfl | rfl <;> decide
    | integer hlow hhigh => exact toText_ofText_toString hlow hhigh
    | double hpos hfinite hshortest => exact toText_ofText_positional hpos hfinite hshortest
    | other hflag hnumeral =>
      have hinteger : parseInteger? text = none :=
        Option.not_isSome_iff_eq_none.1 (mt isNumeral_of_parseInteger? hnumeral)
      have hdouble : parse? text = none :=
        Option.not_isSome_iff_eq_none.1 (mt (isSome_parse?_iff text).1 hnumeral)
      simp only [List.mem_cons, List.not_mem_nil, or_false, not_or] at hflag
      rw [Value.ofText, if_neg hflag.1, if_neg hflag.2, hinteger, hdouble]
      rfl

/-! ### What an environment gives -/

/-- The settings that are texts. -/
inductive TextSetting where
  | masterSecret
  | schemaDir
  | endpoint
  | logLevel

namespace TextSetting

/-- The name of the variable of a setting. -/
def name : TextSetting → String
  | masterSecret => "master_secret"
  | schemaDir => "schema_dir"
  | endpoint => "otel_exporter_otlp_endpoint"
  | logLevel => "log_level"

/-- The text of a setting, if it has one. -/
def get (s : Settings) : TextSetting → Option String
  | masterSecret => s.masterSecret
  | schemaDir => s.schemaDir
  | endpoint => s.endpoint
  | logLevel => some s.logLevel

/-- What a setting is when its variable is not set. -/
def unset : TextSetting → Option String
  | logLevel => some "info"
  | _ => none

end TextSetting

/-- An environment sets the variable of a setting to a text. Of several variables for it, which
differ in the case of their letters, the last one counts. -/
def SetsTo (environment : List (String × String)) (setting text : String) : Prop :=
  ∃ before name after, environment = before ++ (name, text) :: after ∧
    isNamed setting name = true ∧ ∀ entry ∈ after, isNamed setting entry.1 = false

section

variable {environment : List (String × String)} {s : Settings}

theorem valueOf?_of_setsTo {setting text : String} (h : SetsTo environment setting text) :
    valueOf? environment setting = some (Value.ofText text) := by
  obtain ⟨before, name, after, rfl, hname, hafter⟩ := h
  have hnone : after.reverse.find? (fun entry => isNamed setting entry.1) = none := by
    rw [List.find?_eq_none]
    intro entry hentry
    rw [hafter entry (List.mem_reverse.1 hentry)]
    exact Bool.false_ne_true
  rw [valueOf?, List.reverse_append, List.reverse_cons, List.append_assoc, List.find?_append, hnone]
  simp [hname]

theorem bind_eq_ok {α β : Type} {reading : Except Fault α} {next : α → Except Fault β} {b : β}
    (h : reading >>= next = .ok b) : ∃ a, reading = .ok a ∧ next a = .ok b := by
  cases reading with
  | error fault => cases h
  | ok a => exact ⟨a, rfl, h⟩

/-- The texts of an environment stand in the settings that it gives. -/
theorem get_of_ofEnvironment (h : ofEnvironment environment = .ok s) (setting : TextSetting) :
    setting.get s = (readText? environment setting.name).or setting.unset := by
  unfold ofEnvironment at h
  split at h
  · cases h
  · obtain ⟨share, -, h⟩ := bind_eq_ok h
    obtain ⟨threshold, -, h⟩ := bind_eq_ok h
    obtain ⟨integrity, -, h⟩ := bind_eq_ok h
    obtain ⟨listenPort, -, h⟩ := bind_eq_ok h
    cases h
    cases setting with
    | masterSecret => exact Option.or_none.symm
    | schemaDir => exact Option.or_none.symm
    | endpoint => exact Option.or_none.symm
    | logLevel =>
      change some ((readText? environment "log_level").getD "info") =
        (readText? environment "log_level").or (some "info")
      cases readText? environment "log_level" <;> rfl

/-- Texts are neither adjusted nor changed by the check. -/
theorem get_of_load [Entropy.Machine] (h : load environment = .ok s) (setting : TextSetting) :
    setting.get s = (readText? environment setting.name).or setting.unset := by
  obtain ⟨given, hgiven, haccept⟩ := bind_eq_ok h
  rw [eq_of_accept_eq_ok haccept, ← get_of_ofEnvironment hgiven]
  cases setting <;> rfl

theorem load_of_ofEnvironment [Entropy.Machine] (h : ofEnvironment environment = .ok s) :
    load environment = s.accept := by
  rw [load, h]
  rfl

/-- A text that is set is read and written out again, and so it stands in the settings as it was
given just if it is kept. -/
theorem text_settings_kept_iff [Entropy.Machine] (h : load environment = .ok s)
    (setting : TextSetting) {text : String} (hset : SetsTo environment setting.name text) :
    setting.get s = some (Value.ofText text).toText ∧
      (setting.get s = some text ↔ IsKept text) := by
  have hget : setting.get s = some (Value.ofText text).toText := by
    rw [get_of_load h, readText?, valueOf?_of_setsTo hset]
    rfl
  refine ⟨hget, ?_⟩
  rw [hget, Option.some.injEq]
  exact toText_ofText_iff text

end

/-- A directory that is no number is kept. -/
theorem schema_dir_kept :
    ∃ s, load [("SCHEMA_DIR", "schemas/v1.10")] = .ok s ∧
      SetsTo [("SCHEMA_DIR", "schemas/v1.10")] TextSetting.schemaDir.name "schemas/v1.10" ∧
      s.schemaDir = some "schemas/v1.10" := by
  have hset : SetsTo [("SCHEMA_DIR", "schemas/v1.10")] TextSetting.schemaDir.name "schemas/v1.10" :=
    ⟨[], "SCHEMA_DIR", [], rfl, by decide, fun _ h => absurd h List.not_mem_nil⟩
  have hkept : IsKept "schemas/v1.10" := by
    refine .other (by decide) ?_
    rw [← isSome_parse?_iff]
    decide
  refine ⟨_, rfl, hset, ?_⟩
  exact (text_settings_kept_iff rfl TextSetting.schemaDir hset).2.2 hkept

/-- A strong master secret that is a numeral is written out with other digits. -/
theorem decimal_secret_altered :
    Entropy.isStrong "-0.00152313469629845778" secretLength = true ∧
      ∃ s, load [("MASTER_SECRET", "-0.00152313469629845778")] = .ok s ∧
        s.masterSecret = some "-0.0015231346962984577" := by
  have hstrong : Entropy.isStrong "-0.0015231346962984577" secretLength = true := by
    decide +kernel
  have htext : (Value.ofText "-0.00152313469629845778").toText = "-0.0015231346962984577" := by
    decide +kernel
  let given : Settings :=
    { masterSecret := some (Value.ofText "-0.00152313469629845778").toText,
      share := Wipe.defaultShare, threshold := defaultThreshold, integrity := true,
      schemaDir := none, listenPort := defaultListenPort, endpoint := none, logLevel := "info" }
  have hgiven : ofEnvironment [("MASTER_SECRET", "-0.00152313469629845778")] = .ok given := rfl
  have hsecret : given.normalise.HasStrongSecret := by
    intro secret h
    cases h
    rw [htext]
    exact (hasMinimum_secretLength _).trans (congrArg _ hstrong)
  have hdir : given.normalise.HasNamedSchemaDir := by
    intro dir h
    cases h
  obtain ⟨accepted, haccepted⟩ : ∃ accepted, given.accept = .ok accepted :=
    exists_accept_eq_ok_iff.2 (validate_eq_ok_iff.2 ⟨by decide, hsecret, hdir⟩)
  constructor
  · decide +kernel
  · refine ⟨accepted, ?_, ?_⟩
    · rw [load_of_ofEnvironment hgiven, haccepted]
    · rw [eq_of_accept_eq_ok haccepted]
      exact congrArg some htext

end FieldVault.Settings
