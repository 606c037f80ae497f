import FieldVault.Proofs.Bytes
import FieldVault.Json.Reader
import FieldVault.Json.Writer

/-!
# Strings are read as they were written

A string is written with an escape for some of its bytes, and every escape is read back as the byte
it stands for (`encodeByte_cases`). So a string is read back from its written form, whatever follows
(`string_encodeString`).
-/

set_option autoImplicit false

namespace FieldVault.Json

/-! ### Escapes -/

theorem hexValue?_hexDigit {n : Nat} (h : n < 16) : hexValue? (hexDigit n) = some n := by
  revert n
  decide

theorem utf8EncodeChar_ofNat {n : Nat} (h : n < 32) :
    String.utf8EncodeChar (Char.ofNat n) = [UInt8.ofNat n] := by
  revert n
  decide

/-- An escape of four digits that stand for a control character is read as its byte. -/
theorem escape_control {n : Nat} (h : n < 32) (rest : Bytes) :
    escape (0x75 :: 0x30 :: 0x30 :: hexDigit (n / 16) :: hexDigit (n % 16) :: rest) =
      .ok ([UInt8.ofNat n], rest) := by
  have hzero : hexValue? 0x30 = some 0 := rfl
  have hhigh := hexValue?_hexDigit (Nat.div_lt_of_lt_mul (Nat.lt_of_lt_of_le h (by decide)) :
    n / 16 < 16)
  have hlow := hexValue?_hexDigit (Nat.mod_lt n (by decide) : n % 16 < 16)
  have hunit : hexUnit (0x30 :: 0x30 :: hexDigit (n / 16) :: hexDigit (n % 16) :: rest) =
      .ok (n, rest) := by
    simp only [hexUnit, hzero, hhigh, hlow, Nat.zero_mul, Nat.zero_add, Nat.div_add_mod']
  rw [escape, if_pos rfl, unicodeEscape, hunit]
  -- a control character is no half of a pair
  have hlone : ¬ (0xdc00 ≤ n ∧ n ≤ 0xdfff) := by omega
  have hpair : ¬ (0xd800 ≤ n ∧ n ≤ 0xdbff) := by omega
  simp only [bind, Except.bind, if_neg hlone, if_neg hpair, utf8EncodeChar_ofNat h]
  rfl

/-- A byte stands for itself, or is written as an escape that is read as the byte. -/
theorem encodeByte_cases (b : UInt8) :
    (encodeByte b = [b] ∧ b ≠ 0x22 ∧ b ≠ 0x5c ∧ ¬ b < 0x20) ∨
      ∃ tail, encodeByte b = 0x5c :: tail ∧ ∀ rest, escape (tail ++ rest) = .ok ([b], rest) := by
  unfold encodeByte
  cases hletter : escapeLetter? b with
  | some letter =>
    refine .inr ⟨[letter], rfl, fun rest => ?_⟩
    unfold escapeLetter? at hletter
    split at hletter
    · rename_i h
      cases hletter
      rcases h with rfl | rfl <;> rfl
    · -- the letter tells the byte
      repeat (split at hletter; rename_i h; · cases h; cases hletter; rfl)
      cases hletter
  | none =>
    dsimp only
    split
    · rename_i hcontrol
      have hlt : b.toNat < 32 := UInt8.lt_iff_toNat_lt.1 hcontrol
      refine .inr ⟨_, rfl, fun rest => ?_⟩
      have hescape := escape_control hlt rest
      rwa [UInt8.ofNat_toNat] at hescape
    · rename_i hplain
      refine .inl ⟨rfl, ?_, ?_, hplain⟩
      · rintro rfl
        cases hletter
      · rintro rfl
        cases hletter

theorem length_le_flatMap_encodeByte (bytes : Bytes) :
    bytes.length ≤ (bytes.flatMap encodeByte).length := by
  induction bytes with
  | nil => exact Nat.zero_le _
  | cons b bytes ih =>
    have hpos : 1 ≤ (encodeByte b).length := by
      rcases encodeByte_cases b with ⟨h, -⟩ | ⟨tail, h, -⟩
      · rw [h]
        exact Nat.le_refl _
      · rw [h]
        exact Nat.succ_le_succ (Nat.zero_le _)
    rw [List.flatMap_cons, List.length_append, List.length_cons, Nat.add_comm]
    exact Nat.add_le_add hpos ih

/-! ### Strings -/

/-- The bytes of a string are read up to its closing quote. -/
theorem stringBytes_encode (bytes rest : Bytes) {fuel : Bytes} (read : Bytes)
    (hfuel : bytes.length < fuel.length) :
    stringBytes fuel read (bytes.flatMap encodeByte ++ 0x22 :: rest) =
      .ok (read.reverse ++ bytes, rest) := by
  induction bytes generalizing fuel read with
  | nil =>
    cases fuel with
    | nil => cases hfuel
    | cons first fuel =>
      rw [List.flatMap_nil, List.nil_append, stringBytes, if_pos rfl, List.append_nil]
  | cons b bytes ih =>
    cases fuel with
    | nil => cases hfuel
    | cons first fuel =>
      have hread := ih (b :: read) (Nat.lt_of_succ_lt_succ hfuel)
      rw [List.reverse_cons, List.append_assoc, List.singleton_append] at hread
      rw [List.flatMap_cons, List.append_assoc]
      rcases encodeByte_cases b with ⟨h, hquote, hslash, hplain⟩ | ⟨tail, h, hescape⟩
      · rw [h, List.singleton_append, stringBytes, if_neg hquote, if_neg hslash, if_neg hplain,
          hread]
      · rw [h, List.cons_append, stringBytes, if_neg (by decide), if_pos rfl, hescape]
        exact hread

/-- A string is read back, whatever follows it. -/
theorem string_encodeString (text : String) (rest : Bytes) :
    ∃ given, encodeString text ++ rest = 0x22 :: given ∧ string given = .ok (text, rest) := by
  refine ⟨(Bytes.ofText text).flatMap encodeByte ++ 0x22 :: rest, ?_, ?_⟩
  · rw [encodeString, List.cons_append, List.cons_append, List.append_assoc]
    rfl
  · have hfuel : (Bytes.ofText text).length <
        ((Bytes.ofText text).flatMap encodeByte ++ 0x22 :: rest).length := by
      rw [List.length_append, List.length_cons]
      have hlength := length_le_flatMap_encodeByte (Bytes.ofText text)
      omega
    rw [string, stringBytes_encode _ _ [] hfuel]
    simp only [bind, Except.bind, List.reverse_nil, List.nil_append, Bytes.toText_ofText]
    rfl

/-! ### Texts as values -/

/-- Nothing is skipped before a byte that is no space. -/
theorem skipSpace_cons {b : UInt8} (h : isSpace b = false) (rest : Bytes) :
    skipSpace (b :: rest) = b :: rest :=
  List.dropWhile_cons_of_neg (Bool.eq_false_iff.1 h)

theorem valueWith_quote (array object : Reader Json) (given : Bytes) :
    valueWith array object (0x22 :: given) =
      (string given).map fun (text, rest) => (.str text, rest) := rfl

end FieldVault.Json
