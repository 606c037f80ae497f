import FieldVault.Json.Skip
import FieldVault.Proofs.Json.Compact
import FieldVault.Proofs.Json.Extent

/-!
# What is read can be passed over

A member that a record does not know is passed over by a reader of its own, which only looks at the
outline of the value. Whatever is read as a value is passed over by it as far as it was read, also
in a longer text (`passes_value`). So the text of any value can stand in a record under a name that
the record does not know (`skip_of_parseTree`).
-/

set_option autoImplicit false

namespace FieldVault.Json

variable {α β : Type} {input rest tail : Bytes}

theorem bind_eq_ok {reading : Except Fault α} {next : α → Except Fault β} {b : β}
    (h : reading >>= next = .ok b) : ∃ a, reading = .ok a ∧ next a = .ok b := by
  cases reading with
  | error fault => cases h
  | ok a => exact ⟨a, rfl, h⟩

theorem map_eq_ok {reading : Except Fault α} {f : α → β} {b : β} (h : reading.map f = .ok b) :
    ∃ a, reading = .ok a ∧ f a = b := by
  cases reading with
  | error fault => cases h
  | ok a =>
    cases h
    exact ⟨a, rfl, rfl⟩

/-! ### Tokens -/

theorem token_append {token : UInt8}
    (h : (match skipSpace input with
      | [] => .error .truncated
      | b :: rest => if b = token then .ok rest else .error .malformed : Except Fault Bytes) =
        .ok rest) (tail : Bytes) :
    (match skipSpace (input ++ tail) with
      | [] => .error .truncated
      | b :: rest => if b = token then .ok rest else .error .malformed : Except Fault Bytes) =
        .ok (rest ++ tail) := by
  cases hspace : skipSpace input with
  | nil =>
    rw [hspace] at h
    cases h
  | cons b after =>
    rw [hspace] at h
    rw [skipSpace_append hspace]
    dsimp only at h ⊢
    split at h
    · rename_i hb
      cases h
      rw [if_pos hb]
    · cases h

theorem openName_append (h : openName input = .ok rest) (tail : Bytes) :
    openName (input ++ tail) = .ok (rest ++ tail) := token_append h tail

theorem colon_append (h : colon input = .ok rest) (tail : Bytes) :
    colon (input ++ tail) = .ok (rest ++ tail) := token_append h tail

theorem word_append {letters : Bytes} (h : word letters input = .ok rest) (tail : Bytes) :
    word letters (input ++ tail) = .ok (rest ++ tail) := by
  induction letters generalizing input with
  | nil =>
    cases h
    rfl
  | cons letter letters ih =>
    cases input with
    | nil => cases h
    | cons b input =>
      rw [word] at h
      rw [List.cons_append, word]
      split at h
      · rename_i hb
        rw [if_pos hb]
        exact ih h
      · cases h

/-! ### Numbers -/

/-- Digits that end in a text end there in a longer one. -/
theorem dropWhile_isDigit_append {digits : Bytes}
    (htail : digits.dropWhile isDigit = [] → EndsToken tail) :
    (digits ++ tail).dropWhile isDigit = digits.dropWhile isDigit ++ tail := by
  rw [List.dropWhile_append]
  cases hrest : digits.dropWhile isDigit with
  | nil => exact (htail hrest).dropWhile_isDigit
  | cons b bytes => rfl

theorem EndsToken.skipExponent (h : EndsToken rest) : skipExponent rest = .ok rest := by
  cases rest with
  | nil => rfl
  | cons b bytes =>
    rw [skipExponent.eq_def]
    exact if_neg (not_or.2 h.notMem_number.2.2)

theorem EndsToken.skipFraction (h : EndsToken rest) : skipFraction rest = .ok rest := by
  cases rest with
  | nil => rfl
  | cons b bytes =>
    rw [FieldVault.Json.skipFraction, if_neg h.notMem_number.2.1]
    exact h.skipExponent

/-- Digits that must come next are passed over. -/
theorem skipDigits_append {d : UInt8} {digits : Bytes} (hd : isDigit d)
    (htail : (d :: digits).dropWhile isDigit = [] → EndsToken tail) :
    skipDigits (d :: digits ++ tail) = .ok ((d :: digits).dropWhile isDigit ++ tail) := by
  rw [List.dropWhile_cons_of_pos hd] at htail ⊢
  rw [List.cons_append, skipDigits, if_pos hd, dropWhile_isDigit_append htail]

/-- The digits of an exponent after its sign are passed over. -/
theorem skipDigits_of_signedDigits {negative : Bool} {digits : Bytes} {exponent : Int}
    (h : signedDigits negative digits = .ok (exponent, rest))
    (htail : rest = [] → EndsToken tail) : skipDigits (digits ++ tail) = .ok (rest ++ tail) := by
  cases digits with
  | nil => cases h
  | cons d digits =>
    rw [signedDigits] at h
    split at h
    · rename_i hd
      cases h
      exact skipDigits_append hd htail
    · cases h

/-- An exponent behind its letter is passed over. -/
theorem skipExponent_of_exponentDigits {b : UInt8} {exponent : Int} (hb : b = 0x65 ∨ b = 0x45)
    (h : exponentDigits input = .ok (exponent, rest)) (htail : rest = [] → EndsToken tail) :
    skipExponent (b :: input ++ tail) = .ok (rest ++ tail) := by
  cases input with
  | nil => cases h
  | cons s digits =>
    rw [exponentDigits_cons] at h
    rw [List.cons_append, List.cons_append, skipExponent.eq_def]
    dsimp only
    rw [if_pos hb]
    by_cases hplus : s = 0x2b
    · rw [if_pos hplus] at h
      rw [if_pos (.inl hplus)]
      exact skipDigits_of_signedDigits h htail
    · rw [if_neg hplus] at h
      by_cases hminus : s = 0x2d
      · rw [if_pos hminus] at h
        rw [if_pos (.inr hminus)]
        exact skipDigits_of_signedDigits h htail
      · rw [if_neg hminus] at h
        rw [if_neg (not_or.2 ⟨hplus, hminus⟩)]
        exact skipDigits_of_signedDigits h htail

theorem skipExponent_of_exponentPart {exponent : Option Int}
    (h : exponentPart input = .ok (exponent, rest)) (htail : rest = [] → EndsToken tail) :
    skipExponent (input ++ tail) = .ok (rest ++ tail) := by
  cases input with
  | nil =>
    cases h
    exact (htail rfl).skipExponent
  | cons b after =>
    rw [exponentPart] at h
    split at h
    · rename_i hb
      obtain ⟨⟨e, left⟩, hdigits, heq⟩ := bind_eq_ok h
      cases heq
      exact skipExponent_of_exponentDigits hb hdigits htail
    · rename_i hb
      cases h
      rw [List.cons_append, skipExponent.eq_def]
      exact if_neg hb

theorem skipFraction_of_fractionPart {fraction : Option Bytes}
    (h : fractionPart input = .ok (fraction, rest)) (htail : rest = [] → EndsToken tail) :
    skipFraction (input ++ tail) = skipExponent (rest ++ tail) := by
  cases input with
  | nil =>
    cases h
    rw [List.nil_append, (htail rfl).skipFraction, (htail rfl).skipExponent]
  | cons b after =>
    rw [fractionPart.eq_def] at h
    dsimp only at h
    rw [List.cons_append, skipFraction]
    split at h
    · rename_i hb
      rw [if_pos hb]
      cases after with
      | nil => cases h
      | cons d digits =>
        dsimp only at h
        split at h
        · rename_i hd
          cases h
          rw [skipDigits_append hd htail]
          rfl
        · cases h
    · rename_i hb
      cases h
      rw [if_neg hb]
      rfl

theorem skipNumber_of_wholePart {whole : Bytes} (h : wholePart input = .ok (whole, rest))
    (htail : rest = [] → EndsToken tail) :
    skipNumber (input ++ tail) = skipFraction (rest ++ tail) := by
  cases input with
  | nil => cases h
  | cons b after =>
    rw [wholePart.eq_def] at h
    rw [List.cons_append, skipNumber.eq_def]
    dsimp only at h ⊢
    by_cases hb : isDigit b
    · rw [if_pos hb] at h
      by_cases hzero : b = 0x30
      · rw [if_pos hzero] at h ⊢
        cases after with
        | nil =>
          -- the zero was the end of the text, and what follows is no digit
          cases h
          have hends := htail rfl
          cases tail with
          | nil => rfl
          | cons d bytes => simp [hends.not_isDigit]
        | cons d bytes =>
          dsimp only at h
          split at h
          · cases h
          · rename_i hd
            cases h
            simp [hd]
      · rw [if_neg hzero] at h ⊢
        cases h
        rw [if_pos hb, dropWhile_isDigit_append htail]
    · rw [if_neg hb] at h
      cases h

/-- The parts of a number that is read. One that ends the text leaves nothing for those behind. -/
theorem parts_of_number {negative : Bool} {v : Json} (h : number negative input = .ok (v, rest)) :
    ∃ whole fraction exponent afterWhole afterFraction,
      wholePart input = .ok (whole, afterWhole) ∧
      fractionPart afterWhole = .ok (fraction, afterFraction) ∧
      exponentPart afterFraction = .ok (exponent, rest) ∧
      numberOf negative whole fraction exponent = .ok v ∧
      (afterFraction = [] → rest = []) ∧ (afterWhole = [] → rest = []) := by
  rw [number_eq] at h
  obtain ⟨⟨whole, afterWhole⟩, hwhole, h⟩ := bind_eq_ok h
  obtain ⟨⟨fraction, afterFraction⟩, hfraction, h⟩ := bind_eq_ok h
  obtain ⟨⟨exponent, last⟩, hexponent, h⟩ := bind_eq_ok h
  obtain ⟨found, hvalue, heq⟩ := bind_eq_ok h
  cases heq
  have hendFraction : afterFraction = [] → last = [] := by
    rintro rfl
    cases hexponent
    rfl
  refine ⟨whole, fraction, exponent, afterWhole, afterFraction, hwhole, hfraction, hexponent,
    hvalue, hendFraction, ?_⟩
  rintro rfl
  cases hfraction
  exact hendFraction rfl

/-- A number that is read is passed over as far as it was read. -/
theorem skipNumber_of_number {negative : Bool} {v : Json}
    (h : number negative input = .ok (v, rest)) (htail : rest = [] → EndsToken tail) :
    skipNumber (input ++ tail) = .ok (rest ++ tail) := by
  obtain ⟨whole, fraction, exponent, afterWhole, afterFraction, hwhole, hfraction, hexponent, -,
    hendFraction, hendWhole⟩ := parts_of_number h
  rw [skipNumber_of_wholePart hwhole fun hend => htail (hendWhole hend),
    skipFraction_of_fractionPart hfraction fun hend => htail (hendFraction hend),
    skipExponent_of_exponentPart hexponent htail]

/-! ### Strings -/

theorem hexUnit_append {unit : Nat} (h : hexUnit input = .ok (unit, rest)) (tail : Bytes) :
    hexUnit (input ++ tail) = .ok (unit, rest ++ tail) := by
  unfold hexUnit at h
  split at h
  · rename_i a b c d after
    split at h
    · rename_i ha hb hc hd
      cases h
      simp only [List.cons_append, hexUnit, ha, hb, hc, hd]
    · cases h
  · cases h

/-- The second of two units has an escape of its own. -/
theorem exists_of_trailingUnit {unit : Nat} (h : trailingUnit input = .ok (unit, rest)) :
    ∃ digits, input = 0x5c :: 0x75 :: digits ∧ hexUnit digits = .ok (unit, rest) ∧
      (0xdc00 ≤ unit ∧ unit ≤ 0xdfff) := by
  unfold trailingUnit at h
  cases input with
  | nil => cases h
  | cons b after =>
    dsimp only at h
    split at h
    · rename_i hslash
      cases after with
      | nil => cases h
      | cons c digits =>
        dsimp only [bind, Except.bind] at h
        split at h
        · rename_i hletter
          obtain ⟨⟨found, left⟩, hunit, h⟩ := bind_eq_ok h
          dsimp only at h
          split at h
          · rename_i hrange
            cases h
            exact ⟨digits, by rw [hslash, hletter], hunit, hrange⟩
          · cases h
        · cases h
    · cases h

theorem trailingUnit_append {unit : Nat} (h : trailingUnit input = .ok (unit, rest))
    (tail : Bytes) : trailingUnit (input ++ tail) = .ok (unit, rest ++ tail) := by
  obtain ⟨digits, rfl, hunit, hrange⟩ := exists_of_trailingUnit h
  simp only [List.cons_append, trailingUnit, bind, Except.bind, if_true, hexUnit_append hunit tail,
    if_pos hrange]
  rfl

theorem unicodeEscape_append {bytes : Bytes} (h : unicodeEscape input = .ok (bytes, rest))
    (tail : Bytes) : unicodeEscape (input ++ tail) = .ok (bytes, rest ++ tail) := by
  obtain ⟨⟨unit, after⟩, hunit, h⟩ := bind_eq_ok h
  rw [unicodeEscape, hexUnit_append hunit tail]
  dsimp only [bind, Except.bind] at h ⊢
  split at h
  · cases h
  · rename_i hlone
    rw [if_neg hlone]
    split at h
    · rename_i hpair
      obtain ⟨⟨second, last⟩, hsecond, h⟩ := bind_eq_ok h
      obtain ⟨hbytes, hrest⟩ := Prod.mk.inj (Except.ok.inj h)
      rw [if_pos hpair, trailingUnit_append hsecond tail, ← hbytes, ← hrest]
      rfl
    · rename_i hpair
      obtain ⟨hbytes, hrest⟩ := Prod.mk.inj (Except.ok.inj h)
      rw [if_neg hpair, ← hbytes, ← hrest]
      rfl

/-- An escape has one unit, or two that stand for one character. -/
theorem units_of_unicodeEscape {bytes : Bytes} (h : unicodeEscape input = .ok (bytes, rest)) :
    ∃ unit after, hexUnit input = .ok (unit, after) ∧
      (after = rest ∨ ∃ second, trailingUnit after = .ok (second, rest)) := by
  obtain ⟨⟨unit, after⟩, hunit, h⟩ := bind_eq_ok h
  refine ⟨unit, after, hunit, ?_⟩
  dsimp only at h
  split at h
  · cases h
  · split at h
    · obtain ⟨⟨second, last⟩, hsecond, h⟩ := bind_eq_ok h
      exact .inr ⟨second, (Prod.mk.inj (Except.ok.inj h)).2 ▸ hsecond⟩
    · exact .inl (Prod.mk.inj (Except.ok.inj h)).2

theorem escape_append {bytes : Bytes} (h : escape input = .ok (bytes, rest)) (tail : Bytes) :
    escape (input ++ tail) = .ok (bytes, rest ++ tail) := by
  cases input with
  | nil => cases h
  | cons b after =>
    rw [escape] at h
    rw [List.cons_append, escape]
    split at h
    · rename_i hb
      rw [if_pos hb]
      exact unicodeEscape_append h tail
    · rename_i hb
      rw [if_neg hb]
      cases hshort : shortEscape? b with
      | none =>
        rw [hshort] at h
        cases h
      | some c =>
        rw [hshort] at h
        cases h
        rfl

/-- A string that ends in a text ends there in a longer one. -/
theorem stringBytes_append {fuel fuel' read bytes : Bytes}
    (h : stringBytes fuel read input = .ok (bytes, rest)) (hfuel : fuel.length ≤ fuel'.length)
    (tail : Bytes) : stringBytes fuel' read (input ++ tail) = .ok (bytes, rest ++ tail) := by
  induction fuel generalizing fuel' read input with
  | nil => cases h
  | cons first fuel ih =>
    cases fuel' with
    | nil => cases hfuel
    | cons first' fuel' =>
      have hless : fuel.length ≤ fuel'.length := Nat.le_of_succ_le_succ hfuel
      cases input with
      | nil => cases h
      | cons b after =>
        rw [stringBytes] at h
        rw [List.cons_append, stringBytes]
        split at h
        · rename_i hquote
          cases h
          rw [if_pos hquote]
        · rename_i hquote
          rw [if_neg hquote]
          split at h
          · rename_i hslash
            rw [if_pos hslash]
            cases hescape : escape after with
            | error fault =>
              rw [hescape] at h
              cases h
            | ok result =>
              rw [hescape] at h
              rw [escape_append hescape tail]
              exact ih h hless
          · rename_i hslash
            rw [if_neg hslash]
            split at h
            · cases h
            · rename_i hcontrol
              rw [if_neg hcontrol]
              exact ih h hless

theorem string_append {text : String} (h : string input = .ok (text, rest)) (tail : Bytes) :
    string (input ++ tail) = .ok (text, rest ++ tail) := by
  obtain ⟨⟨bytes, after⟩, hbytes, h⟩ := bind_eq_ok h
  have hlength : input.length ≤ (input ++ tail).length := by simp
  rw [string, stringBytes_append hbytes hlength tail]
  dsimp only at h
  split at h
  · rename_i found htext
    cases h
    simp only [bind, Except.bind, htext]
    rfl
  · cases h

/-- How an escape is passed over. -/
theorem skipString_slash (first c : UInt8) (fuel rest : Bytes) :
    skipString (first :: fuel) (0x5c :: c :: rest) =
      if c = 0x75 then
        match hexUnit rest with
        | .ok (_, rest) => skipString fuel rest
        | .error fault => .error fault
      else if (shortEscape? c).isSome then skipString fuel rest
      else .error .malformed := rfl

/-- An escape that is read is passed over, in one step or two. -/
theorem skipString_of_escape {fuel bytes : Bytes} (h : escape input = .ok (bytes, rest))
    (hfuel : input.length ≤ fuel.length) (first : UInt8) :
    ∃ left, rest.length ≤ left.length ∧
      skipString (first :: fuel) (0x5c :: input) = skipString left rest := by
  cases input with
  | nil => cases h
  | cons c after =>
    rw [List.length_cons] at hfuel
    rw [escape] at h
    rw [skipString_slash]
    split at h
    · rename_i hletter
      rw [if_pos hletter]
      obtain ⟨unit, afterUnit, hunit, hunits⟩ := units_of_unicodeEscape h
      have hlength := gives_hexUnit _ hunit
      dsimp only at hlength
      rw [hunit]
      rcases hunits with rfl | ⟨second, hsecond⟩
      · exact ⟨fuel, by omega, rfl⟩
      · -- the second unit is an escape for the next step
        obtain ⟨digits, rfl, hdigits, -⟩ := exists_of_trailingUnit hsecond
        have hlast := gives_hexUnit _ hdigits
        simp only [List.length_cons] at hlength hlast
        cases fuel with
        | nil =>
          rw [List.length_nil] at hfuel
          omega
        | cons next fuel =>
          rw [List.length_cons] at hfuel
          refine ⟨fuel, by omega, ?_⟩
          dsimp only
          rw [skipString_slash, if_pos rfl, hdigits]
    · rename_i hletter
      rw [if_neg hletter]
      cases hshort : shortEscape? c with
      | none =>
        rw [hshort] at h
        cases h
      | some letter =>
        rw [hshort] at h
        cases h
        exact ⟨fuel, by omega, rfl⟩

/-- The bytes of a string that is read are passed over. -/
theorem skipString_of_stringBytes {fuel fuel' read bytes : Bytes}
    (h : stringBytes fuel read input = .ok (bytes, rest)) (hfuel : input.length ≤ fuel'.length) :
    skipString fuel' input = .ok rest := by
  induction fuel generalizing fuel' read input with
  | nil => cases h
  | cons first fuel ih =>
    cases input with
    | nil => cases h
    | cons b after =>
      cases fuel' with
      | nil => cases hfuel
      | cons first' fuel' =>
        have hless : after.length ≤ fuel'.length := Nat.le_of_succ_le_succ hfuel
        rw [stringBytes] at h
        split at h
        · rename_i hquote
          cases h
          rw [skipString.eq_def]
          exact if_pos hquote
        · rename_i hquote
          split at h
          · rename_i hslash
            subst hslash
            cases hescape : escape after with
            | error fault =>
              rw [hescape] at h
              cases h
            | ok result =>
              rw [hescape] at h
              obtain ⟨left, hleft, hskip⟩ := skipString_of_escape hescape hless first'
              rw [hskip]
              exact ih h hleft
          · rename_i hslash
            split at h
            · cases h
            · rename_i hcontrol
              rw [skipString.eq_def]
              dsimp only
              rw [if_neg hquote, if_neg hslash, if_neg hcontrol]
              exact ih h hless

theorem skipString_of_string {fuel : Bytes} {text : String} (h : string input = .ok (text, rest))
    (hfuel : input.length ≤ fuel.length) : skipString fuel input = .ok rest := by
  obtain ⟨⟨bytes, after⟩, hbytes, h⟩ := bind_eq_ok h
  dsimp only at h
  split at h
  · cases h
    exact skipString_of_stringBytes hbytes hfuel
  · cases h

/-! ### Arrays and objects -/

/-- What a reader takes from the front of an input of at most `bound` bytes is passed over by
another, also in a longer text, unless it may go on there. -/
def Passes (bound : Nat) (reader : Reader α) (skipper : Reader Unit) : Prop :=
  ∀ (input rest tail : Bytes) (a : α), input.length ≤ bound → reader input = .ok (a, rest) →
    (rest = [] → EndsToken tail) →
    rest.length ≤ input.length ∧ skipper (input ++ tail) = .ok ((), rest ++ tail)

variable {bound : Nat}

theorem passes_refuse (fault : Fault) (skipper : Reader Unit) :
    Passes bound (refuse fault : Reader α) skipper := by
  intro input rest tail a _ h
  cases h

theorem length_lt_of_skipSpace {b : UInt8} (h : skipSpace input = b :: rest) :
    rest.length < input.length := by
  have hlength := (List.dropWhile_sublist isSpace (l := input)).length_le
  rw [skipSpace] at h
  rw [h, List.length_cons] at hlength
  exact hlength

section Loops

variable {σ : Type} {skipper : Unit → Reader Unit} {start : σ}

theorem passes_loop {closing : UInt8} {element : σ → Reader σ}
    (h : ∀ state, Passes bound (element state) (skipper ())) {fuel fuel' : Bytes}
    (hfuel : fuel.length ≤ fuel'.length) {state final : σ} {input rest : Bytes}
    (hinput : input.length ≤ bound)
    (hloop : loop closing element fuel state input = .ok (final, rest)) (tail : Bytes) :
    rest.length ≤ input.length ∧
      loop closing skipper fuel' () (input ++ tail) = .ok ((), rest ++ tail) := by
  induction fuel generalizing fuel' state input with
  | nil => cases hloop
  | cons first fuel ih =>
    cases fuel' with
    | nil => cases hfuel
    | cons first' fuel' =>
      have hless : fuel.length ≤ fuel'.length := Nat.le_of_succ_le_succ hfuel
      rw [loop] at hloop ⊢
      cases hread : element state input with
      | error fault =>
        rw [hread] at hloop
        cases hloop
      | ok result =>
        obtain ⟨next, left⟩ := result
        rw [hread] at hloop
        dsimp only at hloop
        cases hspace : skipSpace left with
        | nil =>
          rw [hspace] at hloop
          cases hloop
        | cons b after =>
          -- something follows the element, and so it ends there whatever the text goes on with
          have hends : left = [] → EndsToken tail := by
            rintro rfl
            cases hspace
          obtain ⟨hlength, hskip⟩ := h state input left tail next hinput hread hends
          have hafter := length_lt_of_skipSpace hspace
          rw [hspace] at hloop
          rw [hskip]
          dsimp only at hloop ⊢
          rw [skipSpace_append hspace]
          dsimp only
          split at hloop
          · rename_i hclosing
            cases hloop
            rw [if_pos hclosing]
            exact ⟨by omega, rfl⟩
          · rename_i hclosing
            rw [if_neg hclosing]
            split at hloop
            · rename_i hcomma
              obtain ⟨hrest, hskipped⟩ := ih hless (by omega) hloop
              rw [if_pos hcomma]
              exact ⟨by omega, hskipped⟩
            · cases hloop

/-- A list is passed over if its elements are. -/
theorem passes_enclosed {closing : UInt8} {element : σ → Reader σ}
    (h : ∀ state, Passes bound (element state) (skipper ())) :
    Passes bound (enclosed closing element start) (enclosed closing skipper ()) := by
  intro input rest tail final hinput hread _
  rw [enclosed] at hread ⊢
  cases hspace : skipSpace input with
  | nil =>
    rw [hspace] at hread
    cases hread
  | cons b after =>
    have hafter := length_lt_of_skipSpace hspace
    rw [hspace] at hread
    rw [skipSpace_append hspace]
    dsimp only at hread ⊢
    split at hread
    · rename_i hclosing
      cases hread
      rw [if_pos hclosing]
      exact ⟨by omega, rfl⟩
    · rename_i hclosing
      have hfuel : (b :: after).length ≤ (b :: (after ++ tail)).length := by simp
      have hshort : (b :: after).length ≤ bound := by
        rw [List.length_cons]
        omega
      obtain ⟨hrest, hskipped⟩ := passes_loop h hfuel hshort hread tail
      rw [if_neg hclosing]
      exact ⟨Nat.le_trans hrest hafter, hskipped⟩

end Loops

theorem passes_itemOf {reader : Reader Json} {skipper : Reader Unit}
    (h : Passes bound reader skipper) (read : List Json) :
    Passes bound (itemOf reader read) skipper := by
  intro input rest tail items hinput hread hends
  obtain ⟨⟨item, left⟩, hitem, heq⟩ := map_eq_ok hread
  cases heq
  exact h _ _ _ _ hinput hitem hends

/-- A member is passed over if its value is. -/
theorem passes_memberOf {reader : Reader Json} {skipper : Reader Unit}
    (h : Passes bound reader skipper) (read : List (String × Json)) :
    Passes bound (fromName (memberOf reader) read)
      (fromName (fun _ => skipMember skipper) ()) := by
  intro input rest tail members hinput hread hends
  obtain ⟨afterQuote, hquote, hread⟩ := bind_eq_ok hread
  obtain ⟨⟨name, afterName⟩, hname, hread⟩ := bind_eq_ok hread
  obtain ⟨afterColon, hcolon, hread⟩ := bind_eq_ok hread
  obtain ⟨⟨found, left⟩, hvalue, heq⟩ := bind_eq_ok hread
  cases heq
  have hquoteLength : afterQuote.length ≤ input.length :=
    gives_openName (Nat.le_refl input.length) _ hquote
  have hnameLength : afterName.length ≤ afterQuote.length :=
    (reads_string afterQuote (Nat.le_refl afterQuote.length) _ hname).2
  have hcolonLength : afterColon.length ≤ afterName.length :=
    gives_colon (Nat.le_refl afterName.length) _ hcolon
  obtain ⟨hrest, hskipped⟩ := h _ _ _ _ (by omega) hvalue hends
  refine ⟨by omega, ?_⟩
  dsimp only [fromName, bind, Except.bind]
  rw [openName_append hquote tail]
  dsimp only [skipMember, bind, Except.bind]
  rw [skipString_of_string (string_append hname tail) (Nat.le_refl _)]
  dsimp only
  rw [colon_append hcolon tail]
  exact hskipped

theorem passes_itemsWith {reader : Reader Json} {skipper : Reader Unit}
    (h : Passes bound reader skipper) :
    Passes bound (itemsWith (itemOf reader) []) (itemsWith (fun _ => skipper) ()) := by
  rw [itemsWith_eq, itemsWith_eq]
  exact passes_enclosed (passes_itemOf h)

theorem passes_membersWith {reader : Reader Json} {skipper : Reader Unit}
    (h : Passes bound reader skipper) :
    Passes bound (membersWith (memberOf reader) [])
      (membersWith (fun _ => skipMember skipper) ()) := by
  rw [membersWith_eq, membersWith_eq]
  exact passes_enclosed (passes_memberOf h)

/-! ### Values -/

/-- A value is passed over if arrays and objects are. -/
theorem passes_valueWith {array object : Reader Json} {skipArray skipObject : Reader Unit}
    (harray : Passes bound array skipArray) (hobject : Passes bound object skipObject) :
    Passes (bound + 1) (valueWith array object) (skipWith skipArray skipObject) := by
  intro input rest tail v hinput hread hends
  rw [valueWith] at hread
  rw [skipWith]
  cases hspace : skipSpace input with
  | nil =>
    rw [hspace] at hread
    cases hread
  | cons b after =>
    have hafter := length_lt_of_skipSpace hspace
    have hshort : after.length ≤ bound := by omega
    rw [hspace] at hread
    rw [skipSpace_append hspace]
    dsimp only at hread ⊢
    have hword : ∀ (letters : Bytes) (read : Json),
        (word letters after).map (fun rest => (read, rest)) = .ok (v, rest) →
        rest.length ≤ input.length ∧
          (word letters (after ++ tail)).map (fun rest => ((), rest)) =
            .ok ((), rest ++ tail) := by
      intro letters read hread
      obtain ⟨left, hletters, heq⟩ := map_eq_ok hread
      cases heq
      have hlength := gives_word letters (Nat.le_refl after.length) _ hletters
      rw [Rest] at hlength
      rw [word_append hletters tail]
      exact ⟨by omega, rfl⟩
    have hnumber : ∀ (negative : Bool) (given : Bytes), given.length ≤ input.length →
        number negative given = .ok (v, rest) → rest.length ≤ input.length ∧
          (skipNumber (given ++ tail)).map (fun rest => ((), rest)) = .ok ((), rest ++ tail) := by
      intro negative given hgiven hread
      have hlength := (reads_number (p := fun _ => True) negative given (Nat.le_refl _) _ hread).2
      rw [skipNumber_of_number hread hends]
      exact ⟨Nat.le_trans hlength hgiven, rfl⟩
    by_cases hnull : b = 0x6e
    · rw [if_pos hnull] at hread ⊢
      exact hword _ _ hread
    rw [if_neg hnull] at hread ⊢
    by_cases htrue : b = 0x74
    · rw [if_pos htrue] at hread ⊢
      exact hword _ _ hread
    rw [if_neg htrue] at hread ⊢
    by_cases hfalse : b = 0x66
    · rw [if_pos hfalse] at hread ⊢
      exact hword _ _ hread
    rw [if_neg hfalse] at hread ⊢
    by_cases hminus : b = 0x2d
    · rw [if_pos hminus] at hread ⊢
      exact hnumber true after (by omega) hread
    rw [if_neg hminus] at hread ⊢
    by_cases hdigit : isDigit b
    · rw [if_pos hdigit] at hread ⊢
      exact hnumber false (b :: after) hafter hread
    rw [if_neg hdigit] at hread ⊢
    by_cases hquote : b = 0x22
    · rw [if_pos hquote] at hread ⊢
      obtain ⟨⟨text, left⟩, htext, heq⟩ := map_eq_ok hread
      cases heq
      have hlength : left.length ≤ after.length :=
        (reads_string after (Nat.le_refl after.length) _ htext).2
      rw [skipString_of_string (string_append htext tail) (Nat.le_refl _)]
      exact ⟨Nat.le_trans hlength (Nat.le_of_lt hafter), rfl⟩
    rw [if_neg hquote] at hread ⊢
    by_cases hbracket : b = 0x5b
    · rw [if_pos hbracket] at hread ⊢
      obtain ⟨hrest, hskipped⟩ := harray _ _ _ _ hshort hread hends
      exact ⟨by omega, hskipped⟩
    rw [if_neg hbracket] at hread ⊢
    by_cases hbrace : b = 0x7b
    · rw [if_pos hbrace] at hread ⊢
      obtain ⟨hrest, hskipped⟩ := hobject _ _ _ _ hshort hread hends
      exact ⟨by omega, hskipped⟩
    · rw [if_neg hbrace] at hread
      cases hread

theorem Passes.map {reader : Reader α} {skipper : Reader Unit} (h : Passes bound reader skipper)
    (f : α → β) : Passes bound (fun input => (reader input).map fun (a, rest) => (f a, rest))
      skipper := by
  intro input rest tail b hinput hread hends
  obtain ⟨⟨a, left⟩, hread, heq⟩ := map_eq_ok hread
  cases heq
  exact h _ _ _ _ hinput hread hends

/-- A value is passed over as far as it is read, however deep it is nested. -/
theorem passes_value (depth : Nat) (fuel : Bytes) :
    Passes fuel.length (value depth) (skipValue fuel) := by
  induction depth generalizing fuel with
  | zero =>
    cases fuel with
    | nil =>
      intro input rest tail v hinput hread _
      cases List.length_eq_zero_iff.1 (Nat.le_zero.1 hinput)
      cases hread
    | cons first fuel => exact passes_valueWith (passes_refuse _ _) (passes_refuse _ _)
  | succ depth ih =>
    cases fuel with
    | nil =>
      intro input rest tail v hinput hread _
      cases List.length_eq_zero_iff.1 (Nat.le_zero.1 hinput)
      cases hread
    | cons first fuel =>
      exact passes_valueWith ((passes_itemsWith (ih fuel)).map fun read => Json.arr read.reverse)
        ((passes_membersWith (ih fuel)).map fun read => Json.obj read.reverse)

/-- The text of any value is passed over, whatever may follow a value. -/
theorem skip_of_parseTree {text : Bytes} {v : Json} (h : parseTree text = .ok v)
    (hrest : Ends rest) :
    ∃ left, skip (text ++ rest) = .ok ((), left) ∧ skipSpace left = rest := by
  obtain ⟨⟨found, left⟩, hread, hfinish⟩ := bind_eq_ok h
  have hleft : skipSpace left = [] := by
    dsimp only [finish] at hfinish
    split at hfinish
    · rename_i hempty
      exact List.isEmpty_iff.1 hempty
    · cases hfinish
  have hlength : text.length ≤ (text ++ rest).length := by simp
  obtain ⟨-, hskip⟩ := passes_value nestingLimit (text ++ rest) text left rest found hlength hread
    fun _ => hrest.endsToken
  refine ⟨left ++ rest, hskip, ?_⟩
  rw [skipSpace] at hleft ⊢
  rw [List.dropWhile_append, hleft]
  exact hrest.skipSpace

end FieldVault.Json
