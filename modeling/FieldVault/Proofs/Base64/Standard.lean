import FieldVault.Proofs.Base64
import Mathlib.Tactic.Ring

/-!
# The standard encoding

The base64 text of a byte string is defined on its bits: they are cut into sixes, the last of which
is filled up with zeros, each six is a letter of the alphabet, and padding makes the number of
characters a multiple of four (`standard`). This is the text that is written (`encode_eq_standard`),
and nothing else is read: a text that stands for a byte string is the standard text of that byte
string (`decode?_eq_some_iff`), down to the unused bits and the padding.
-/

set_option autoImplicit false

namespace FieldVault.Base64

/-! ### The text of a list of bits -/

/-- The 64 letters in the order of their values. -/
def alphabet : List Char :=
  "ABCDEFGHIJKLMNOPQRSTUVWXYZabcdefghijklmnopqrstuvwxyz0123456789+/".toList

/-- The low bits of a number, the highest of them first. -/
def bits : Nat → Nat → List Bool
  | 0, _ => []
  | width + 1, n => n.testBit width :: bits width n

/-- The number that bits write. -/
def ofBits (list : List Bool) : Nat := list.foldl (fun n bit => 2 * n + bit.toNat) 0

/-- The letter of at most six bits, which are filled up with zeros. -/
def letter (six : List Bool) : Char :=
  alphabet.getD (ofBits (six ++ List.replicate (6 - six.length) false)) '='

/-- The letters of a list of bits, six bits to a letter. -/
def letters (list : List Bool) : List Char :=
  if list = [] then [] else letter (list.take 6) :: letters (list.drop 6)
termination_by list.length
decreasing_by
  rename_i h
  have := List.length_pos_iff.2 h
  rw [List.length_drop]
  omega

/-- Letters followed by padding up to a multiple of four characters. -/
def padded (list : List Char) : List Char :=
  list ++ List.replicate ((4 - list.length % 4) % 4) '='

/-- The standard text of a byte string. -/
def standard (bytes : Bytes) : String :=
  String.ofList (padded (letters (bytes.flatMap fun b => bits 8 b.toNat)))

/-! ### Bits of numbers -/

theorem length_bits (width n : Nat) : (bits width n).length = width := by
  induction width with
  | zero => rfl
  | succ width ih => simp [bits, ih]

/-- The high bits of a number are those of its quotient. -/
theorem bits_add (width low n : Nat) :
    bits (width + low) n = bits width (n / 2 ^ low) ++ bits low n := by
  induction width with
  | zero => simp [bits]
  | succ width ih =>
    rw [Nat.succ_add, bits, bits, ih, Nat.testBit_div_two_pow]
    rfl

/-- The low bits of a number are those of its remainder. -/
theorem bits_congr {width m n : Nat} (h : m % 2 ^ width = n % 2 ^ width) :
    bits width m = bits width n := by
  induction width with
  | zero => rfl
  | succ width ih =>
    have hbit := congrArg (Nat.testBit · width) h
    simp only [Nat.testBit_mod_two_pow, Nat.lt_succ_self, decide_true, Bool.true_and] at hbit
    have hlow : m % 2 ^ width = n % 2 ^ width := by
      have hdvd : 2 ^ width ∣ 2 ^ (width + 1) := Nat.pow_dvd_pow 2 (Nat.le_succ width)
      rw [← Nat.mod_mod_of_dvd m hdvd, h, Nat.mod_mod_of_dvd n hdvd]
    rw [bits, bits, hbit, ih hlow]

/-- The bits of two numbers in a row are those of one number. -/
theorem bits_append {width low high n : Nat} (hhigh : n / 2 ^ low = high) {m : Nat}
    (hlow : n % 2 ^ low = m % 2 ^ low) : bits width high ++ bits low m = bits (width + low) n := by
  rw [bits_add, hhigh, bits_congr hlow]

theorem bits_zero (width : Nat) : bits width 0 = List.replicate width false := by
  induction width with
  | zero => rfl
  | succ width ih => rw [bits, ih, Nat.zero_testBit, List.replicate_succ]

/-- Bits write the number that they are the bits of. -/
theorem ofBits_bits (width n : Nat) : ofBits (bits width n) = n % 2 ^ width := by
  -- the induction is on the bits from the first on, for whatever stands before them
  have hfold : ∀ start, (bits width n).foldl (fun n bit => 2 * n + bit.toNat) start =
      start * 2 ^ width + n % 2 ^ width := by
    induction width with
    | zero => simp [bits, Nat.mod_one]
    | succ width ih =>
      intro start
      rw [bits, List.foldl_cons, ih, Nat.toNat_testBit, Nat.pow_succ, Nat.mod_mul]
      ring
  rw [ofBits, hfold, Nat.zero_mul, Nat.zero_add]

/-! ### Letters -/

theorem alphabet_getD {n : Nat} (h : n < 2 ^ 6) : alphabet.getD n '=' = digit n := by
  revert n
  decide

/-- Six bits are written as the digit of their number. -/
theorem letter_bits (n : Nat) : letter (bits 6 n) = digit (n % 64) := by
  rw [letter, length_bits, Nat.sub_self, List.replicate_zero, List.append_nil, ofBits_bits]
  exact alphabet_getD (Nat.mod_lt n (by decide))

/-- Fewer bits are written as the digit of their number with zeros behind it. -/
theorem letter_bits_of_le {width : Nat} (h : width ≤ 6) (n : Nat) :
    letter (bits width n) = digit (n * 2 ^ (6 - width) % 64) := by
  have hfilled : bits width n ++ List.replicate (6 - width) false =
      bits 6 (n * 2 ^ (6 - width)) := by
    have hhigh : n * 2 ^ (6 - width) / 2 ^ (6 - width) = n :=
      Nat.mul_div_cancel n (Nat.two_pow_pos _)
    have hlow : n * 2 ^ (6 - width) % 2 ^ (6 - width) = 0 % 2 ^ (6 - width) := by simp
    rw [← bits_zero, bits_append hhigh hlow, Nat.add_sub_cancel' h]
  rw [letter, length_bits, hfilled, ofBits_bits]
  exact alphabet_getD (Nat.mod_lt _ (by decide))

theorem letters_nil : letters [] = [] := by rw [letters, if_pos rfl]

/-- Six bits are a letter before the others. -/
theorem letters_six (n : Nat) (rest : List Bool) :
    letters (bits 6 n ++ rest) = digit (n % 64) :: letters rest := by
  rw [letters, if_neg (by simp [bits]), List.take_left' (length_bits 6 n),
    List.drop_left' (length_bits 6 n), letter_bits]

/-- Fewer bits are the last letter. -/
theorem letters_last {width : Nat} (hpos : 0 < width) (h : width ≤ 6) (n : Nat) :
    letters (bits width n) = [digit (n * 2 ^ (6 - width) % 64)] := by
  have hlength : (bits width n).length ≤ 6 := by rwa [length_bits]
  have hne : bits width n ≠ [] := by
    rw [← List.length_pos_iff, length_bits]
    exact hpos
  rw [letters, if_neg hne, List.take_of_length_le hlength, List.drop_of_length_le hlength,
    letter_bits_of_le h, letters_nil]

theorem padded_four (p q r s : Char) (rest : List Char) :
    padded (p :: q :: r :: s :: rest) = p :: q :: r :: s :: padded rest := by
  have hlength : (p :: q :: r :: s :: rest).length % 4 = rest.length % 4 := by
    simp only [List.length_cons]
    omega
  rw [padded, padded, hlength]
  rfl

/-! ### Writing -/

/-- The digits that are written are the letters of the bits, with padding. -/
theorem encodeChars_eq_padded (bytes : Bytes) :
    encodeChars bytes = padded (letters (bytes.flatMap fun b => bits 8 b.toNat)) := by
  induction bytes using encodeChars.induct with
  | case1 => simp [encodeChars, letters_nil, padded]
  | case2 a =>
    -- eight bits are six and two
    have ha := a.toNat_lt
    have hbits : bits 8 a.toNat = bits 6 (a.toNat / 4) ++ bits 2 a.toNat := bits_add 6 2 _
    have hhigh : a.toNat / 4 % 64 = a.toNat * 16 / 64 := by omega
    rw [List.flatMap_singleton, hbits, letters_six, letters_last (by decide) (by decide), hhigh]
    simp [encodeChars, padded]
  | case3 a b =>
    -- sixteen bits are two times six, and four
    have ha := a.toNat_lt
    have hb := b.toNat_lt
    have hbits : bits 8 a.toNat ++ bits 8 b.toNat =
        bits 6 ((a.toNat * 256 + b.toNat) / 1024) ++
          (bits 6 ((a.toNat * 256 + b.toNat) / 16) ++ bits 4 (a.toNat * 256 + b.toNat)) := by
      rw [bits_append (n := a.toNat * 256 + b.toNat) (by omega) (by omega)]
      exact (bits_add 6 10 _).trans (congrArg _ (bits_add 6 4 _))
    have hfirst : (a.toNat * 256 + b.toNat) / 1024 % 64 =
        (a.toNat * 256 + b.toNat) * 4 / 4096 := by omega
    have hsecond : (a.toNat * 256 + b.toNat) / 16 % 64 =
        (a.toNat * 256 + b.toNat) * 4 / 64 % 64 := by omega
    rw [List.flatMap_cons, List.flatMap_singleton, hbits, letters_six, letters_six,
      letters_last (by decide) (by decide), hfirst, hsecond]
    simp [encodeChars, padded]
  | case4 a b c rest ih =>
    -- twenty-four bits are four times six
    have ha := a.toNat_lt
    have hb := b.toNat_lt
    have hc := c.toNat_lt
    have hbits : bits 8 a.toNat ++ (bits 8 b.toNat ++ bits 8 c.toNat) =
        bits 24 ((a.toNat * 256 + b.toNat) * 256 + c.toNat) := by
      rw [bits_append (n := b.toNat * 256 + c.toNat) (by omega) (by omega),
        bits_append (n := (a.toNat * 256 + b.toNat) * 256 + c.toNat) (by omega) (by omega)]
    have hsixes : ∀ n, bits 24 n =
        bits 6 (n / 262144) ++ (bits 6 (n / 4096) ++ (bits 6 (n / 64) ++ bits 6 n)) := by
      intro n
      exact (bits_add 6 18 n).trans
        (congrArg _ ((bits_add 6 12 n).trans (congrArg _ (bits_add 6 6 n))))
    rw [List.flatMap_cons, List.flatMap_cons, List.flatMap_cons,
      ← List.append_assoc (bits 8 b.toNat),
      ← List.append_assoc (bits 8 a.toNat), hbits, hsixes]
    simp only [List.append_assoc, letters_six]
    rw [padded_four, encodeChars, ih]
    congr 2
    omega

/-- What is written is the standard text. -/
theorem encode_eq_standard (bytes : Bytes) : encode bytes = standard bytes := by
  rw [encode, standard, encodeChars_eq_padded]

/-! ### Reading -/

/-- The value of a digit is that of no other digit. -/
theorem digit_of_value? {c : Char} {n : Nat} (h : value? c = some n) : n < 64 ∧ digit n = c := by
  have hdigit : ∀ {m : Nat}, m = c.toNat → Char.ofNat m = c := by
    rintro m rfl
    exact Char.ofNat_toNat c
  have hrange : ∀ {low high : Char}, low ≤ c ∧ c ≤ high → low.toNat ≤ c.toNat ∧
      c.toNat ≤ high.toNat := fun h => h
  unfold value? at h
  split at h
  · rename_i hupper
    obtain ⟨hlow, hhigh⟩ := hrange hupper
    simp only [Char.reduceToNat] at hlow hhigh
    cases h
    refine ⟨by omega, ?_⟩
    rw [digit, if_pos (by omega)]
    exact hdigit (by omega)
  split at h
  · rename_i hlower
    obtain ⟨hlow, hhigh⟩ := hrange hlower
    simp only [Char.reduceToNat] at hlow hhigh
    cases h
    refine ⟨by omega, ?_⟩
    rw [digit, if_neg (by omega), if_pos (by omega)]
    exact hdigit (by omega)
  split at h
  · rename_i hnumeral
    obtain ⟨hlow, hhigh⟩ := hrange hnumeral
    simp only [Char.reduceToNat] at hlow hhigh
    cases h
    refine ⟨by omega, ?_⟩
    rw [digit, if_neg (by omega), if_neg (by omega), if_pos (by omega)]
    exact hdigit (by omega)
  split at h
  · rename_i hplus
    cases h
    exact ⟨by decide, hplus.symm⟩
  split at h
  · rename_i hslash
    cases h
    exact ⟨by decide, hslash.symm⟩
  · cases h

theorem toNat_ofNat_byte {n : Nat} (h : n < 256) : (UInt8.ofNat n).toNat = n :=
  UInt8.toNat_ofNat_of_lt' h

/-- A group of two digits and padding is read as the byte that is written as this group. -/
theorem encodeChars_of_lastByte? {p q : Char} {bytes : Bytes} (h : lastByte? p q = some bytes) :
    encodeChars bytes = [p, q, '=', '='] := by
  simp only [lastByte?, Option.bind_eq_bind, Option.bind_eq_some_iff] at h
  obtain ⟨x, hx, y, hy, hbytes⟩ := h
  obtain ⟨hxlt, rfl⟩ := digit_of_value? hx
  obtain ⟨hylt, rfl⟩ := digit_of_value? hy
  split at hbytes
  · rename_i hspare
    cases hbytes
    have hbyte : (UInt8.ofNat ((x * 64 + y) / 16)).toNat = (x * 64 + y) / 16 :=
      toNat_ofNat_byte (by omega)
    have hjoin : (x * 64 + y) / 16 * 16 = x * 64 + y := by omega
    have hfirst : (x * 64 + y) / 64 = x := by omega
    have hsecond : (x * 64 + y) % 64 = y := by omega
    simp only [encodeChars, hbyte, hjoin, hfirst, hsecond]
  · cases hbytes

/-- A group of three digits and padding is read as the two bytes that are written as this group. -/
theorem encodeChars_of_lastTwoBytes? {p q r : Char} {bytes : Bytes}
    (h : lastTwoBytes? p q r = some bytes) : encodeChars bytes = [p, q, r, '='] := by
  simp only [lastTwoBytes?, Option.bind_eq_bind, Option.bind_eq_some_iff] at h
  obtain ⟨x, hx, y, hy, z, hz, hbytes⟩ := h
  obtain ⟨hxlt, rfl⟩ := digit_of_value? hx
  obtain ⟨hylt, rfl⟩ := digit_of_value? hy
  obtain ⟨hzlt, rfl⟩ := digit_of_value? hz
  split at hbytes
  · rename_i hspare
    cases hbytes
    have hhigh : (UInt8.ofNat (((x * 64 + y) * 64 + z) / 1024)).toNat =
        ((x * 64 + y) * 64 + z) / 1024 := toNat_ofNat_byte (by omega)
    have hlow : (UInt8.ofNat (((x * 64 + y) * 64 + z) / 4 % 256)).toNat =
        ((x * 64 + y) * 64 + z) / 4 % 256 := toNat_ofNat_byte (by omega)
    have hjoin : (((x * 64 + y) * 64 + z) / 1024 * 256 + ((x * 64 + y) * 64 + z) / 4 % 256) * 4 =
        (x * 64 + y) * 64 + z := by omega
    have hfirst : ((x * 64 + y) * 64 + z) / 4096 = x := by omega
    have hsecond : ((x * 64 + y) * 64 + z) / 64 % 64 = y := by omega
    have hthird : ((x * 64 + y) * 64 + z) % 64 = z := by omega
    simp only [encodeChars, hhigh, hlow, hjoin, hfirst, hsecond, hthird]
  · cases hbytes

/-- A full group is read as the three bytes that are written as this group. -/
theorem encodeChars_of_group? {p q r s : Char} {bytes : Bytes} (h : group? p q r s = some bytes)
    (rest : Bytes) : encodeChars (bytes ++ rest) = p :: q :: r :: s :: encodeChars rest := by
  simp only [group?, Option.bind_eq_bind, Option.bind_eq_some_iff] at h
  obtain ⟨x, hx, y, hy, z, hz, w, hw, hbytes⟩ := h
  obtain ⟨hxlt, rfl⟩ := digit_of_value? hx
  obtain ⟨hylt, rfl⟩ := digit_of_value? hy
  obtain ⟨hzlt, rfl⟩ := digit_of_value? hz
  obtain ⟨hwlt, rfl⟩ := digit_of_value? hw
  cases hbytes
  generalize hn : ((x * 64 + y) * 64 + z) * 64 + w = n
  have hfirst : (UInt8.ofNat (n / 65536)).toNat = n / 65536 := toNat_ofNat_byte (by omega)
  have hsecond : (UInt8.ofNat (n / 256 % 256)).toNat = n / 256 % 256 :=
    toNat_ofNat_byte (by omega)
  have hthird : (UInt8.ofNat (n % 256)).toNat = n % 256 := toNat_ofNat_byte (by omega)
  have hjoin : (n / 65536 * 256 + n / 256 % 256) * 256 + n % 256 = n := by omega
  have hdigits : n / 262144 = x ∧ n / 4096 % 64 = y ∧ n / 64 % 64 = z ∧ n % 64 = w := by omega
  obtain ⟨hx, hy, hz, hw⟩ := hdigits
  simp only [List.cons_append, List.nil_append, encodeChars, hfirst, hsecond, hthird, hjoin, hx, hy,
    hz, hw]

/-- Whatever is read is read from the digits that its bytes are written as. -/
theorem encodeChars_of_decodeChars? {text : List Char} {bytes : Bytes}
    (h : decodeChars? text = some bytes) : encodeChars bytes = text := by
  induction text using decodeChars?.induct generalizing bytes with
  | case1 =>
    cases h
    rfl
  | case2 p q => exact encodeChars_of_lastByte? h
  | case3 p q r hr =>
    rw [decodeChars?.eq_3 _ _ _ hr] at h
    exact encodeChars_of_lastTwoBytes? h
  | case4 p q r s rest hpadded hpadding ih =>
    rw [decodeChars?.eq_4 _ _ _ _ _ hpadded hpadding] at h
    obtain ⟨head, hhead, hrest⟩ := Option.bind_eq_some_iff.1 h
    obtain ⟨tail, htail, hbytes⟩ := Option.bind_eq_some_iff.1 hrest
    cases hbytes
    rw [encodeChars_of_group? hhead, ih htail]
  | case5 text hnil hpadded hpadding hgroup =>
    rw [decodeChars?.eq_5 _ hnil hpadded hpadding hgroup] at h
    cases h

/-- A text is read as a byte string exactly if it is the standard text of that byte string. -/
theorem decode?_eq_some_iff {text : String} {bytes : Bytes} :
    decode? text = some bytes ↔ text = standard bytes := by
  constructor
  · intro h
    rw [← encode_eq_standard, encode, encodeChars_of_decodeChars? h, String.ofList_toList]
  · rintro rfl
    rw [← encode_eq_standard, decode?_encode]

/-- What is not read is no standard text. -/
theorem decode?_eq_none_iff {text : String} :
    decode? text = none ↔ ∀ bytes, text ≠ standard bytes := by
  simp only [Option.eq_none_iff_forall_ne_some, ne_eq, decode?_eq_some_iff]

/-- The bits that the last digit leaves unused must be zero. -/
example : decode? "QQ==" = some [0x41] ∧ decode? "QR==" = none := by decide

end FieldVault.Base64
