import FieldVault.Base64

/-!
# Reading base64 text

The digits of the alphabet and the values below 64 are in one to one correspondence, and no digit
is the padding character. So each group of digits gives back the bytes it was written for, with
two, one or no padding characters at the end, and reading the text of a byte string gives the byte
string back (`decode?_encode`).
-/

set_option autoImplicit false

namespace FieldVault.Base64

/-- Every value below 64 is the value of its digit. -/
theorem value?_digit {n : Nat} (h : n < 64) : value? (digit n) = some n := by
  revert n
  decide

/-- The padding character is not a digit. -/
theorem digit_ne_padding {n : Nat} (h : n < 64) : digit n ≠ '=' := by
  revert n
  decide

/-- A byte is the byte of every number that equals its value. -/
theorem ofNat_eq_of_toNat_eq {n : Nat} {b : UInt8} (h : n = b.toNat) : UInt8.ofNat n = b := by
  rw [h, UInt8.ofNat_toNat]

/-- Two digits of which the second leaves four bits unused are read as the byte they stand for. -/
theorem lastByte?_digits (a : UInt8) :
    lastByte? (digit (a.toNat * 16 / 64)) (digit (a.toNat * 16 % 64)) = some [a] := by
  have ha := a.toNat_lt
  have hjoin : a.toNat * 16 / 64 * 64 + a.toNat * 16 % 64 = a.toNat * 16 := by omega
  have hspare : a.toNat * 16 % 16 = 0 := by omega
  have hbyte : a.toNat * 16 / 16 = a.toNat := by omega
  rw [lastByte?, value?_digit (by omega), value?_digit (by omega)]
  simp only [bind, Option.bind, hjoin, hspare, if_true, ofNat_eq_of_toNat_eq hbyte]

/-- Three digits of which the last leaves two bits unused are read as the bytes they stand for. -/
theorem lastTwoBytes?_digits (a b : UInt8) {n : Nat} (hn : n = (a.toNat * 256 + b.toNat) * 4) :
    lastTwoBytes? (digit (n / 4096)) (digit (n / 64 % 64)) (digit (n % 64)) = some [a, b] := by
  have ha := a.toNat_lt
  have hb := b.toNat_lt
  have hjoin : (n / 4096 * 64 + n / 64 % 64) * 64 + n % 64 = n := by omega
  have hspare : n % 4 = 0 := by omega
  have hfirst : n / 1024 = a.toNat := by omega
  have hsecond : n / 4 % 256 = b.toNat := by omega
  rw [lastTwoBytes?, value?_digit (by omega), value?_digit (by omega), value?_digit (by omega)]
  simp only [bind, Option.bind, hjoin, hspare, if_true, ofNat_eq_of_toNat_eq hfirst,
    ofNat_eq_of_toNat_eq hsecond]

/-- Four digits are read as the three bytes they stand for. -/
theorem group?_digits (a b c : UInt8) {n : Nat}
    (hn : n = (a.toNat * 256 + b.toNat) * 256 + c.toNat) :
    group? (digit (n / 262144)) (digit (n / 4096 % 64)) (digit (n / 64 % 64)) (digit (n % 64)) =
      some [a, b, c] := by
  have ha := a.toNat_lt
  have hb := b.toNat_lt
  have hc := c.toNat_lt
  have hjoin : ((n / 262144 * 64 + n / 4096 % 64) * 64 + n / 64 % 64) * 64 + n % 64 = n := by
    omega
  have hfirst : n / 65536 = a.toNat := by omega
  have hsecond : n / 256 % 256 = b.toNat := by omega
  have hthird : n % 256 = c.toNat := by omega
  rw [group?, value?_digit (by omega), value?_digit (by omega), value?_digit (by omega),
    value?_digit (by omega)]
  simp only [bind, Option.bind, hjoin, ofNat_eq_of_toNat_eq hfirst,
    ofNat_eq_of_toNat_eq hsecond, ofNat_eq_of_toNat_eq hthird]

/-- A group whose last character is a digit is read on its own, before whatever follows it. -/
theorem decodeChars?_group {p q r s : Char} (hs : s ≠ '=') (rest : List Char) :
    decodeChars? (p :: q :: r :: s :: rest) =
      (group? p q r s).bind fun head => (decodeChars? rest).map (head ++ ·) := by
  rw [decodeChars?.eq_4 p q r s rest (fun _ h _ => hs h) (fun h _ => hs h)]
  cases group? p q r s with
  | none => rfl
  | some head => cases decodeChars? rest <;> rfl

/-- Reading the digits of a byte string gives the byte string back. -/
theorem decodeChars?_encodeChars (bytes : Bytes) :
    decodeChars? (encodeChars bytes) = some bytes := by
  -- by groups of three bytes, the last of which may be one or two bytes with padding
  induction bytes using encodeChars.induct with
  | case1 => rfl
  | case2 a => exact lastByte?_digits a
  | case3 a b =>
    have hb := b.toNat_lt
    rw [encodeChars, decodeChars?.eq_3 _ _ _ (digit_ne_padding (by omega))]
    exact lastTwoBytes?_digits a b rfl
  | case4 a b c rest ih =>
    rw [encodeChars, decodeChars?_group (digit_ne_padding (by omega)), group?_digits a b c rfl, ih]
    rfl

/-- Reading the base64 text of a byte string gives the byte string back. -/
theorem decode?_encode (bytes : Bytes) : decode? (encode bytes) = some bytes := by
  rw [decode?, encode, String.toList_ofList]
  exact decodeChars?_encodeChars bytes

theorem length_encodeChars (bytes : Bytes) :
    (encodeChars bytes).length = 4 * ((bytes.length + 2) / 3) := by
  induction bytes using encodeChars.induct with
  | case1 => rfl
  | case2 a => simp [encodeChars]
  | case3 a b => simp [encodeChars]
  | case4 a b c rest ih =>
    rw [encodeChars]
    simp only [List.length_cons, ih]
    omega

/-- A text has four characters for every three bytes that it stands for, rounded up. -/
theorem length_encode (bytes : Bytes) :
    (encode bytes).length = 4 * ((bytes.length + 2) / 3) := by
  rw [encode, String.length_ofList, length_encodeChars]

end FieldVault.Base64
