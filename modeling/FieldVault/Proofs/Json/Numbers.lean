import FieldVault.Proofs.Json.Passing

/-!
# Numbers are read where they stand

A number is read up to what can be no part of it. So it has the same value in a longer text, as long
as what follows it there is no digit, no point and no letter of an exponent (`number_append`).
-/

set_option autoImplicit false

namespace FieldVault.Json

/-! ### Parts of numbers -/

section

variable {input rest tail digits : Bytes}

theorem takeWhile_isDigit_append (htail : digits.dropWhile isDigit = [] → EndsToken tail) :
    (digits ++ tail).takeWhile isDigit = digits.takeWhile isDigit := by
  rw [List.takeWhile_append]
  split
  · rename_i hlength
    have hall : digits.takeWhile isDigit = digits :=
      (List.takeWhile_prefix isDigit).eq_of_length hlength
    have hrest : digits.dropWhile isDigit = [] :=
      List.dropWhile_eq_nil_iff.2 (List.takeWhile_eq_self_iff.1 hall)
    rw [(htail hrest).takeWhile_isDigit, List.append_nil, hall]
  · rfl

/-- Digits that are read are read from a longer text as well. -/
theorem wholePart_append {whole : Bytes} (h : wholePart input = .ok (whole, rest))
    (htail : rest = [] → EndsToken tail) :
    wholePart (input ++ tail) = .ok (whole, rest ++ tail) := by
  cases input with
  | nil => cases h
  | cons b after =>
    rw [wholePart.eq_def] at h
    rw [List.cons_append, wholePart.eq_def]
    dsimp only at h ⊢
    by_cases hb : isDigit b
    · rw [if_pos hb] at h ⊢
      by_cases hzero : b = 0x30
      · rw [if_pos hzero] at h ⊢
        cases after with
        | nil =>
          cases h
          have hends := htail rfl
          cases tail with
          | nil => rfl
          | cons d bytes => simp [hends.not_isDigit]
        | cons d bytes =>
          dsimp only [List.cons_append] at h ⊢
          split at h
          · cases h
          · rename_i hd
            cases h
            rw [if_neg hd]
            rfl
      · rw [if_neg hzero] at h ⊢
        cases h
        rw [takeWhile_isDigit_append htail, dropWhile_isDigit_append htail]
    · rw [if_neg hb] at h
      cases h

theorem fractionPart_append {fraction : Option Bytes}
    (h : fractionPart input = .ok (fraction, rest)) (htail : rest = [] → EndsToken tail) :
    fractionPart (input ++ tail) = .ok (fraction, rest ++ tail) := by
  cases input with
  | nil =>
    cases h
    exact (htail rfl).fractionPart
  | cons b after =>
    rw [fractionPart.eq_def] at h
    rw [List.cons_append, fractionPart.eq_def]
    dsimp only at h ⊢
    split at h
    · rename_i hb
      rw [if_pos hb]
      cases after with
      | nil => cases h
      | cons d bytes =>
        dsimp only at h
        split at h
        · rename_i hd
          cases h
          have htake := takeWhile_isDigit_append htail
          have hdrop := dropWhile_isDigit_append htail
          rw [List.cons_append] at htake hdrop ⊢
          dsimp only
          rw [if_pos hd, htake, hdrop]
        · cases h
    · rename_i hb
      cases h
      rw [if_neg hb]
      rfl

/-- The digits of an exponent after its sign are read. -/
theorem signedDigits_append {negative : Bool} {exponent : Int}
    (h : signedDigits negative digits = .ok (exponent, rest))
    (htail : rest = [] → EndsToken tail) :
    signedDigits negative (digits ++ tail) = .ok (exponent, rest ++ tail) := by
  cases digits with
  | nil => cases h
  | cons d bytes =>
    rw [signedDigits] at h
    split at h
    · rename_i hd
      cases h
      rw [List.cons_append, signedDigits, if_pos hd, ← List.cons_append,
        takeWhile_isDigit_append htail, dropWhile_isDigit_append htail]
    · cases h

theorem exponentDigits_append {exponent : Int}
    (h : exponentDigits input = .ok (exponent, rest)) (htail : rest = [] → EndsToken tail) :
    exponentDigits (input ++ tail) = .ok (exponent, rest ++ tail) := by
  cases input with
  | nil => cases h
  | cons s bytes =>
    rw [exponentDigits_cons] at h
    rw [List.cons_append, exponentDigits_cons]
    by_cases hplus : s = 0x2b
    · rw [if_pos hplus] at h ⊢
      exact signedDigits_append h htail
    · rw [if_neg hplus] at h ⊢
      by_cases hminus : s = 0x2d
      · rw [if_pos hminus] at h ⊢
        exact signedDigits_append h htail
      · rw [if_neg hminus] at h ⊢
        exact signedDigits_append h htail

theorem exponentPart_append {exponent : Option Int}
    (h : exponentPart input = .ok (exponent, rest)) (htail : rest = [] → EndsToken tail) :
    exponentPart (input ++ tail) = .ok (exponent, rest ++ tail) := by
  cases input with
  | nil =>
    cases h
    exact (htail rfl).exponentPart
  | cons b after =>
    rw [exponentPart] at h
    rw [List.cons_append, exponentPart]
    split at h
    · rename_i hb
      obtain ⟨⟨e, left⟩, hdigits, heq⟩ := bind_eq_ok h
      cases heq
      rw [if_pos hb, exponentDigits_append hdigits htail]
      rfl
    · rename_i hb
      cases h
      rw [if_neg hb]
      rfl

end

/-! ### Whole numbers -/

/-- A number is read from a longer text as well, unless it may go on there. -/
theorem number_append {input rest tail : Bytes} {negative : Bool} {v : Json}
    (h : number negative input = .ok (v, rest)) (htail : rest = [] → EndsToken tail) :
    number negative (input ++ tail) = .ok (v, rest ++ tail) := by
  obtain ⟨whole, fraction, exponent, afterWhole, afterFraction, hwhole, hfraction, hexponent,
    hvalue, hendFraction, hendWhole⟩ := parts_of_number h
  have hwhole' := wholePart_append hwhole fun hend => htail (hendWhole hend)
  have hfraction' := fractionPart_append hfraction fun hend => htail (hendFraction hend)
  rw [number_eq, hwhole']
  simp only [bind, Except.bind, hfraction', exponentPart_append hexponent htail, hvalue]
  rfl

end FieldVault.Json
