import FieldVault.Proofs.Json.Strings

/-!
# Strings are read however they are spelled

A character can stand in a string in several ways: as it is, as an escape of one letter, or as an
escape of one or two units of four hexadecimal digits in either case (`Spells`). However the
characters of a text are spelled, one by one, the text is read (`string_of_spellsAll`): the reader
takes each spelling in as the bytes of its character (`Spells.isTaken`).
-/

set_option autoImplicit false

namespace FieldVault.Json

/-! ### Spellings -/

/-- A hexadecimal digit in lowercase or in uppercase. -/
def IsHexDigit (n : Nat) (b : UInt8) : Prop :=
  b = hexDigit n ∨ b = UInt8.ofNat (if n < 10 then 0x30 + n else 0x37 + n)

/-- The four hexadecimal digits of a unit of 16 bits. -/
inductive IsHexUnit (unit : Nat) : Bytes → Prop where
  | digits {a b c d : UInt8} (ha : IsHexDigit (unit / 0x1000) a)
    (hb : IsHexDigit (unit / 0x100 % 0x10) b) (hc : IsHexDigit (unit / 0x10 % 0x10) c)
    (hd : IsHexDigit (unit % 0x10) d) : IsHexUnit unit [a, b, c, d]

/-- The letters of short escapes, with the characters that they stand for. -/
def shortEscapes : List (UInt8 × Nat) :=
  [(0x22, 0x22), (0x5c, 0x5c), (0x2f, 0x2f), (0x62, 0x08), (0x66, 0x0c), (0x6e, 0x0a), (0x72, 0x0d),
    (0x74, 0x09)]

/-- The ways to write a character in a string. -/
inductive Spells (c : Char) : Bytes → Prop where
  /-- As it is, unless it is a control character, a quote or a backslash. -/
  | plain (hcontrol : 0x20 ≤ c.toNat) (hquote : c.toNat ≠ 0x22) (hslash : c.toNat ≠ 0x5c) :
    Spells c (String.utf8EncodeChar c)
  | short {letter : UInt8} (h : (letter, c.toNat) ∈ shortEscapes) : Spells c [0x5c, letter]
  | unit {digits : Bytes} (hsmall : c.toNat < 0x10000) (h : IsHexUnit c.toNat digits) :
    Spells c (0x5c :: 0x75 :: digits)
  | pair {high low : Bytes} (hlarge : 0x10000 ≤ c.toNat)
    (hhigh : IsHexUnit (0xd800 + (c.toNat - 0x10000) / 0x400) high)
    (hlow : IsHexUnit (0xdc00 + (c.toNat - 0x10000) % 0x400) low) :
    Spells c (0x5c :: 0x75 :: (high ++ 0x5c :: 0x75 :: low))

/-- Characters written one after the other. -/
inductive SpellsAll : List Char → Bytes → Prop where
  | nil : SpellsAll [] []
  | cons {c : Char} {cs : List Char} {first rest : Bytes} (h : Spells c first)
    (hrest : SpellsAll cs rest) : SpellsAll (c :: cs) (first ++ rest)

/-! ### Escapes -/

theorem hexValue?_of_isHexDigit {n : Nat} {b : UInt8} (hn : n < 16) (h : IsHexDigit n b) :
    hexValue? b = some n := by
  have hupper : ∀ n < 16,
      hexValue? (UInt8.ofNat (if n < 10 then 0x30 + n else 0x37 + n)) = some n := by decide
  rcases h with rfl | rfl
  · exact hexValue?_hexDigit hn
  · exact hupper n hn

theorem hexUnit_of_isHexUnit {unit : Nat} {digits : Bytes} (hunit : unit < 0x10000)
    (h : IsHexUnit unit digits) (rest : Bytes) : hexUnit (digits ++ rest) = .ok (unit, rest) := by
  cases h with
  | digits ha hb hc hd =>
    have hsum : ((unit / 0x1000 * 16 + unit / 0x100 % 0x10) * 16 + unit / 0x10 % 0x10) * 16 +
        unit % 0x10 = unit := by omega
    simp only [List.cons_append, List.nil_append, hexUnit,
      hexValue?_of_isHexDigit (by omega) ha, hexValue?_of_isHexDigit (by omega) hb,
      hexValue?_of_isHexDigit (by omega) hc, hexValue?_of_isHexDigit (by omega) hd, hsum]

/-- A short escape is read as the byte of its character. -/
theorem escape_of_mem_shortEscapes {c : Char} {letter : UInt8}
    (h : (letter, c.toNat) ∈ shortEscapes) (rest : Bytes) :
    escape (letter :: rest) = .ok (String.utf8EncodeChar c, rest) := by
  have hall : ∀ entry ∈ shortEscapes, entry.1 ≠ 0x75 ∧
      (shortEscape? entry.1).map (fun b => [b]) =
        some (String.utf8EncodeChar (Char.ofNat entry.2)) := by decide
  obtain ⟨hne, hshort⟩ := hall _ h
  rw [Char.ofNat_toNat] at hshort
  obtain ⟨b, hb, hbytes⟩ := Option.map_eq_some_iff.1 hshort
  rw [escape, if_neg hne, hb, ← hbytes]

/-- No character is a half of a pair. -/
theorem isScalar (c : Char) : c.toNat < 0xd800 ∨ 0xdfff < c.toNat ∧ c.toNat < 0x110000 := c.valid

/-- An escape of one unit is read as the bytes of its character. -/
theorem unicodeEscape_of_unit {c : Char} {digits : Bytes} (hsmall : c.toNat < 0x10000)
    (h : IsHexUnit c.toNat digits) (rest : Bytes) :
    unicodeEscape (digits ++ rest) = .ok (String.utf8EncodeChar c, rest) := by
  have hscalar := isScalar c
  have hlone : ¬ (0xdc00 ≤ c.toNat ∧ c.toNat ≤ 0xdfff) := by omega
  have hpair : ¬ (0xd800 ≤ c.toNat ∧ c.toNat ≤ 0xdbff) := by omega
  rw [unicodeEscape, hexUnit_of_isHexUnit hsmall h]
  simp only [bind, Except.bind, if_neg hlone, if_neg hpair, Char.ofNat_toNat]
  rfl

/-- The second of two units is read behind its escape. -/
theorem trailingUnit_of_isHexUnit {unit : Nat} {digits : Bytes}
    (hrange : 0xdc00 ≤ unit ∧ unit ≤ 0xdfff) (h : IsHexUnit unit digits) (rest : Bytes) :
    trailingUnit (0x5c :: 0x75 :: (digits ++ rest)) = .ok (unit, rest) := by
  have hread := hexUnit_of_isHexUnit (Nat.lt_of_le_of_lt hrange.2 (by decide)) h rest
  simp only [trailingUnit, bind, Except.bind, if_true, hread, if_pos hrange]
  rfl

/-- Two units are read as the character that they stand for. -/
theorem unicodeEscape_of_units {c : Char} {first second : Nat} {input between rest : Bytes}
    (hfirst : hexUnit input = .ok (first, between)) (hpair : 0xd800 ≤ first ∧ first ≤ 0xdbff)
    (hsecond : trailingUnit between = .ok (second, rest))
    (hcode : 0x10000 + (first - 0xd800) * 0x400 + (second - 0xdc00) = c.toNat) :
    unicodeEscape input = .ok (String.utf8EncodeChar c, rest) := by
  have hlone : ¬ (0xdc00 ≤ first ∧ first ≤ 0xdfff) := by omega
  rw [unicodeEscape, hfirst]
  simp only [bind, Except.bind, if_neg hlone, if_pos hpair, hsecond, hcode, Char.ofNat_toNat]
  rfl

/-- A character beyond one unit is told by two. -/
theorem pair_of_code {n : Nat} (hlarge : 0x10000 ≤ n) (hscalar : n < 0x110000) :
    (0xd800 ≤ 0xd800 + (n - 0x10000) / 0x400 ∧ 0xd800 + (n - 0x10000) / 0x400 ≤ 0xdbff) ∧
      (0xdc00 ≤ 0xdc00 + (n - 0x10000) % 0x400 ∧ 0xdc00 + (n - 0x10000) % 0x400 ≤ 0xdfff) ∧
      0x10000 + (0xd800 + (n - 0x10000) / 0x400 - 0xd800) * 0x400 +
        (0xdc00 + (n - 0x10000) % 0x400 - 0xdc00) = n := by
  omega

/-- An escape of two units is read as the bytes of the character that they stand for. -/
theorem unicodeEscape_of_pair {c : Char} {high low : Bytes} (hlarge : 0x10000 ≤ c.toNat)
    (hhigh : IsHexUnit (0xd800 + (c.toNat - 0x10000) / 0x400) high)
    (hlow : IsHexUnit (0xdc00 + (c.toNat - 0x10000) % 0x400) low) (rest : Bytes) :
    unicodeEscape (high ++ 0x5c :: 0x75 :: (low ++ rest)) =
      .ok (String.utf8EncodeChar c, rest) := by
  have hscalar : c.toNat < 0x110000 := by
    have h := isScalar c
    omega
  obtain ⟨hpair, hrange, hcode⟩ := pair_of_code hlarge hscalar
  have hunit := Nat.lt_of_le_of_lt hpair.2 (by decide : 0xdbff < 0x10000)
  exact unicodeEscape_of_units (hexUnit_of_isHexUnit hunit hhigh _) hpair
    (trailingUnit_of_isHexUnit hrange hlow rest) hcode

/-! ### Reading spellings -/

/-- Bytes of a string are taken in as others, in no more steps than there are bytes. -/
def IsTaken (given bytes : Bytes) : Prop :=
  ∀ fuel read rest : Bytes, given.length ≤ fuel.length →
    ∃ left : Bytes, fuel.length ≤ left.length + given.length ∧
      stringBytes fuel read (given ++ rest) = stringBytes left (bytes.reverse ++ read) rest

theorem isTaken_nil : IsTaken [] [] := by
  intro fuel read rest _
  exact ⟨fuel, Nat.le_refl _, rfl⟩

theorem IsTaken.append {first second bytes more : Bytes} (hfirst : IsTaken first bytes)
    (hsecond : IsTaken second more) : IsTaken (first ++ second) (bytes ++ more) := by
  intro fuel read rest hfuel
  rw [List.length_append] at hfuel
  obtain ⟨between, hbetween, hread⟩ := hfirst fuel read (second ++ rest) (by omega)
  obtain ⟨left, hleft, hmore⟩ := hsecond between (bytes.reverse ++ read) rest (by omega)
  refine ⟨left, ?_, ?_⟩
  · rw [List.length_append]
    omega
  · rw [List.append_assoc, hread, hmore, List.reverse_append, List.append_assoc]

/-- A byte that stands for itself. -/
theorem isTaken_byte {b : UInt8} (hquote : b ≠ 0x22) (hslash : b ≠ 0x5c) (hplain : ¬ b < 0x20) :
    IsTaken [b] [b] := by
  intro fuel read rest hfuel
  cases fuel with
  | nil => cases hfuel
  | cons first fuel =>
    refine ⟨fuel, Nat.le_refl _, ?_⟩
    rw [List.singleton_append, stringBytes, if_neg hquote, if_neg hslash, if_neg hplain]
    rfl

/-- An escape is taken in as what it stands for. -/
theorem isTaken_escape {tail bytes : Bytes}
    (h : ∀ rest, escape (tail ++ rest) = .ok (bytes, rest)) : IsTaken (0x5c :: tail) bytes := by
  intro fuel read rest hfuel
  cases fuel with
  | nil => cases hfuel
  | cons first fuel =>
    refine ⟨fuel, ?_, ?_⟩
    · rw [List.length_cons, List.length_cons]
      omega
    · rw [List.cons_append, stringBytes, if_neg (by decide), if_pos rfl, h]

/-- A printable character has only bytes that stand for themselves. -/
theorem isTaken_plain {c : Char} (hcontrol : 0x20 ≤ c.toNat) (hquote : c.toNat ≠ 0x22)
    (hslash : c.toNat ≠ 0x5c) :
    IsTaken (String.utf8EncodeChar c) (String.utf8EncodeChar c) := by
  have hbytes : ∀ b ∈ String.utf8EncodeChar c, b ≠ 0x22 ∧ b ≠ 0x5c ∧ ¬ b < 0x20 := by
    intro b hb
    refine ⟨?_, ?_, fun hlt => ?_⟩
    · rintro rfl
      exact hquote (Bytes.toNat_eq_of_mem_utf8EncodeChar (by decide) hb)
    · rintro rfl
      exact hslash (Bytes.toNat_eq_of_mem_utf8EncodeChar (by decide) hb)
    · have hvalue : b.toNat < 0x20 := UInt8.lt_iff_toNat_lt.1 hlt
      have hsmall : b < 0x80 := UInt8.lt_iff_toNat_lt.2 (Nat.lt_trans hvalue (by decide))
      have heq := Bytes.toNat_eq_of_mem_utf8EncodeChar hsmall hb
      omega
  generalize String.utf8EncodeChar c = bytes at hbytes
  induction bytes with
  | nil => exact isTaken_nil
  | cons b bytes ih =>
    obtain ⟨⟨hquote, hslash, hplain⟩, hrest⟩ := List.forall_mem_cons.1 hbytes
    exact (isTaken_byte hquote hslash hplain).append (ih hrest)

/-- However a character is spelled, it is taken in as its bytes. -/
theorem Spells.isTaken {c : Char} {spelled : Bytes} (h : Spells c spelled) :
    IsTaken spelled (String.utf8EncodeChar c) := by
  cases h with
  | plain hcontrol hquote hslash => exact isTaken_plain hcontrol hquote hslash
  | short h => exact isTaken_escape fun rest => escape_of_mem_shortEscapes h rest
  | unit hsmall h =>
    refine isTaken_escape fun rest => ?_
    rw [List.cons_append, escape, if_pos rfl, unicodeEscape_of_unit hsmall h]
  | pair hlarge hhigh hlow =>
    refine isTaken_escape fun rest => ?_
    rw [List.cons_append, List.append_assoc, escape, if_pos rfl]
    exact unicodeEscape_of_pair hlarge hhigh hlow rest

theorem SpellsAll.isTaken {cs : List Char} {spelled : Bytes} (h : SpellsAll cs spelled) :
    IsTaken spelled (cs.flatMap String.utf8EncodeChar) := by
  induction h with
  | nil => exact isTaken_nil
  | cons h _ ih =>
    rw [List.flatMap_cons]
    exact h.isTaken.append ih

/-- A text is read however it is spelled, up to its closing quote. -/
theorem string_of_spellsAll {text : String} {spelled : Bytes} (h : SpellsAll text.toList spelled)
    (rest : Bytes) : string (spelled ++ 0x22 :: rest) = .ok (text, rest) := by
  have hfuel : spelled.length ≤ (spelled ++ 0x22 :: rest).length := by simp
  obtain ⟨left, hleft, hread⟩ := h.isTaken (spelled ++ 0x22 :: rest) [] (0x22 :: rest) hfuel
  cases left with
  | nil =>
    simp only [List.length_append, List.length_cons, List.length_nil] at hleft
    omega
  | cons first left =>
    rw [string, hread, ← Bytes.ofText_eq_flatMap, stringBytes, if_pos rfl]
    simp only [bind, Except.bind, List.append_nil, List.reverse_reverse, Bytes.toText_ofText]
    rfl

end FieldVault.Json
