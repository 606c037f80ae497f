import FieldVault.Proofs.Json.Listing

/-!
# Values are read as they were written

A value whose numbers are integers of 64 bits is read back from its compact form, whatever follows
it, as long as no more brackets are open in it than the reader allows (`value_encode`). So the text
of a whole value has that value (`parseTree_encode`).
-/

set_option autoImplicit false

namespace FieldVault.Json

/-- A value in which at most `depth` brackets are open at once, and whose numbers are integers, of
64 bits with or without a sign. -/
inductive Plain : Nat → Json → Prop where
  | null (depth : Nat) : Plain depth .null
  | bool (depth : Nat) (b : Bool) : Plain depth (.bool b)
  | int (depth : Nat) {i : Int} (hlower : -2 ^ 63 ≤ i) (hupper : i < 2 ^ 64) : Plain depth (.int i)
  | str (depth : Nat) (text : String) : Plain depth (.str text)
  | arr {depth : Nat} {items : List Json} (h : ∀ item ∈ items, Plain depth item) :
    Plain (depth + 1) (.arr items)
  | obj {depth : Nat} {members : List (String × Json)}
    (h : ∀ member ∈ members, Plain depth member.2) : Plain (depth + 1) (.obj members)

theorem Plain.allWhole {depth : Nat} {v : Json} (h : Plain depth v) : AllWhole v := by
  induction h with
  | null => exact .null
  | bool _ b => exact .bool b
  | int _ _ _ => exact .int _
  | str _ text => exact .str text
  | arr _ ih => exact .arr ih
  | obj _ ih => exact .obj ih

/-! ### Digits -/

/-- The byte of a decimal digit. -/
def digitByte (c : Char) : UInt8 := UInt8.ofNat c.toNat

theorem digitByte_ofNat {n : Nat} (h : n < 10) :
    String.utf8EncodeChar (Char.ofNat (48 + n)) = [digitByte (Char.ofNat (48 + n))] ∧
      isDigit (digitByte (Char.ofNat (48 + n))) ∧
      digitValue (digitByte (Char.ofNat (48 + n))) =
        (Char.ofNat (48 + n)).toNat - '0'.toNat := by
  revert n
  decide

theorem digitByte_of_isDigit {c : Char} (h : c.isDigit) :
    String.utf8EncodeChar c = [digitByte c] ∧ isDigit (digitByte c) ∧
      digitValue (digitByte c) = c.toNat - '0'.toNat := by
  obtain ⟨n, hn, rfl⟩ := exists_digit h
  exact digitByte_ofNat hn

/-- The digits of a number, one byte for each. -/
theorem ofText_repr (n : Nat) :
    Bytes.ofText (Nat.repr n) = (Nat.toDigits 10 n).map digitByte := by
  rw [Bytes.ofText_eq_flatMap, Nat.toList_repr]
  have hdigits : ∀ c ∈ Nat.toDigits 10 n, c.isDigit := fun c hc =>
    Nat.isDigit_of_mem_toDigits (by decide) (by decide) hc
  generalize Nat.toDigits 10 n = cs at hdigits
  induction cs with
  | nil => rfl
  | cons c cs ih =>
    obtain ⟨hc, hcs⟩ := List.forall_mem_cons.1 hdigits
    rw [List.flatMap_cons, (digitByte_of_isDigit hc).1, ih hcs]
    rfl

theorem isDigit_of_mem_ofText {n : Nat} {b : UInt8} (h : b ∈ Bytes.ofText (Nat.repr n)) :
    isDigit b := by
  rw [ofText_repr] at h
  obtain ⟨c, hc, rfl⟩ := List.mem_map.1 h
  exact (digitByte_of_isDigit (Nat.isDigit_of_mem_toDigits (by decide) (by decide) hc)).2.1

/-- Only zero is written with a zero in front. -/
theorem exists_first_digit {n : Nat} (h : 0 < n) :
    ∃ c cs, Nat.toDigits 10 n = c :: cs ∧ digitByte c ≠ 0x30 := by
  induction n using Nat.strongRecOn with
  | ind n ih =>
    rcases Nat.lt_or_ge n 10 with hsmall | hlarge
    · rw [Nat.toDigits_of_lt_base hsmall]
      have hne : ∀ d < 10, 0 < d → digitByte d.digitChar ≠ 0x30 := by decide
      exact ⟨n.digitChar, [], rfl, hne n hsmall h⟩
    · obtain ⟨c, cs, hfirst, hne⟩ := ih (n / 10) (by omega) (by omega)
      rw [Nat.toDigits_of_base_le (by decide) hlarge, hfirst]
      exact ⟨c, cs ++ [(n % 10).digitChar], rfl, hne⟩

/-- The digits of a number that fits 64 bits are gathered to the number. -/
theorem gather_digits {cs : List Char} {start : Nat} (hdigits : ∀ c ∈ cs, c.isDigit)
    (hfits : Nat.ofDigitChars 10 cs start ≤ maxInteger) :
    gather start (cs.map digitByte) = (Nat.ofDigitChars 10 cs start, []) := by
  induction cs generalizing start with
  | nil => rfl
  | cons c cs ih =>
    obtain ⟨hc, hcs⟩ := List.forall_mem_cons.1 hdigits
    obtain ⟨-, -, hvalue⟩ := digitByte_of_isDigit hc
    rw [Nat.ofDigitChars_cons] at hfits ⊢
    -- what is gathered so far is no greater than the whole
    have hle : 10 * start + (c.toNat - '0'.toNat) ≤ maxInteger := by
      refine Nat.le_trans ?_ hfits
      rw [Nat.ofDigitChars_eq_ofDigitChars_zero]
      exact Nat.le_trans (Nat.le_mul_of_pos_left _ (Nat.pow_pos (by decide)))
        (Nat.le_add_right _ _)
    rw [List.map_cons, gather, hvalue, if_pos hle, ih hcs hfits]

theorem gather_ofText {n : Nat} (h : n ≤ maxInteger) :
    gather 0 (Bytes.ofText (Nat.repr n)) = (n, []) := by
  rw [ofText_repr, gather_digits (fun c hc =>
    Nat.isDigit_of_mem_toDigits (by decide) (by decide) hc), Nat.ofDigitChars_ten_toDigits]
  rwa [Nat.ofDigitChars_ten_toDigits]

/-! ### Integers -/

section

variable {rest : Bytes}

/-- What may follow a token is no part of a number. -/
theorem EndsToken.notMem_number {b : UInt8} {bytes : Bytes} (h : EndsToken (b :: bytes)) :
    isDigit b = false ∧ b ≠ 0x2e ∧ b ≠ 0x65 ∧ b ≠ 0x45 := by
  have hmem := h b bytes rfl
  simp only [List.mem_cons, List.not_mem_nil, or_false] at hmem
  rcases hmem with rfl | rfl | rfl | rfl | rfl | rfl | rfl <;> decide

theorem EndsToken.not_isDigit {b : UInt8} {bytes : Bytes} (h : EndsToken (b :: bytes)) :
    isDigit b = false := h.notMem_number.1

theorem EndsToken.takeWhile_isDigit (h : EndsToken rest) : rest.takeWhile isDigit = [] := by
  cases rest with
  | nil => rfl
  | cons b bytes => exact List.takeWhile_cons_of_neg (by simp [h.not_isDigit])

theorem EndsToken.dropWhile_isDigit (h : EndsToken rest) : rest.dropWhile isDigit = rest := by
  cases rest with
  | nil => rfl
  | cons b bytes => exact List.dropWhile_cons_of_neg (by simp [h.not_isDigit])

theorem EndsToken.fractionPart (h : EndsToken rest) : fractionPart rest = .ok (none, rest) := by
  cases rest with
  | nil => rfl
  | cons b bytes => exact if_neg h.notMem_number.2.1

theorem EndsToken.exponentPart (h : EndsToken rest) : exponentPart rest = .ok (none, rest) := by
  cases rest with
  | nil => rfl
  | cons b bytes => exact if_neg (not_or.2 h.notMem_number.2.2)

/-- The digits of a number are its whole part. -/
theorem wholePart_ofText (n : Nat) (h : EndsToken rest) :
    wholePart (Bytes.ofText (Nat.repr n) ++ rest) = .ok (Bytes.ofText (Nat.repr n), rest) := by
  rcases Nat.eq_zero_or_pos n with rfl | hpos
  · change wholePart (0x30 :: rest) = .ok ([0x30], rest)
    cases rest with
    | nil => rfl
    | cons d bytes =>
      have hzero : isDigit 0x30 = true := rfl
      simp [wholePart, hzero, h.not_isDigit]
  · have hdigits := fun b => isDigit_of_mem_ofText (n := n) (b := b)
    obtain ⟨c, cs, hfirst, hne⟩ := exists_first_digit hpos
    rw [ofText_repr, hfirst, List.map_cons] at hdigits ⊢
    obtain ⟨hc, hcs⟩ := List.forall_mem_cons.1 hdigits
    rw [List.cons_append, wholePart.eq_def]
    dsimp only
    rw [if_pos hc, if_neg hne, List.takeWhile_append_of_pos hcs, List.dropWhile_append_of_pos hcs,
      h.takeWhile_isDigit, h.dropWhile_isDigit, List.append_nil]

/-- A number that fits 64 bits is read back. -/
theorem number_ofText (negative : Bool) {n : Nat} (hn : n ≤ maxInteger)
    (h : EndsToken rest) :
    number negative (Bytes.ofText (Nat.repr n) ++ rest) = .ok (integerOf negative n, rest) := by
  rw [number, wholePart_ofText n h]
  simp only [bind, Except.bind, h.fractionPart, h.exponentPart, gather_ofText hn]
  rfl

/-- A digit is the first letter of no word, and no sign, quote or bracket. -/
theorem valueWith_digit (array object : Reader Json) {b : UInt8} (hb : isDigit b) (bytes : Bytes) :
    valueWith array object (b :: bytes) = number false (b :: bytes) := by
  have hne (other : UInt8) (hother : isDigit other = false) : b ≠ other := by
    rintro rfl
    rw [hb] at hother
    cases hother
  have hspace : isSpace b = false := by
    simp [isSpace, hne 0x20 rfl, hne 0x09 rfl, hne 0x0a rfl, hne 0x0d rfl]
  rw [valueWith, skipSpace_cons hspace]
  simp only [if_neg (hne 0x6e rfl), if_neg (hne 0x74 rfl), if_neg (hne 0x66 rfl),
    if_neg (hne 0x2d rfl), if_pos hb]

/-- An integer is read back, negative or not. -/
theorem valueWith_int (array object : Reader Json) {i : Int} (hlower : -2 ^ 63 ≤ i)
    (hupper : i < 2 ^ 64) (h : EndsToken rest) :
    valueWith array object ((Json.int i).encode ++ rest) = .ok (.int i, rest) := by
  rw [encode]
  cases i with
  | ofNat n =>
    change valueWith array object (Bytes.ofText (Nat.repr n) ++ rest) = _
    have hlt : n < 2 ^ 64 := by
      change (n : Int) < 2 ^ 64 at hupper
      omega
    have hread := number_ofText false (Nat.le_sub_one_of_lt hlt) h
    have hdigits := fun b => isDigit_of_mem_ofText (n := n) (b := b)
    cases htext : Bytes.ofText (Nat.repr n) with
    | nil => exact absurd (Bytes.ofText_injective htext : Nat.repr n = "") Nat.repr_ne_empty
    | cons b bytes =>
      rw [htext] at hread hdigits
      rw [List.cons_append] at hread ⊢
      rw [valueWith_digit _ _ (hdigits b List.mem_cons_self), hread]
      rfl
  | negSucc n =>
    have htext : Bytes.ofText (toString (Int.negSucc n)) =
        0x2d :: Bytes.ofText (Nat.repr (n + 1)) := Bytes.ofText_append "-" (Nat.repr (n + 1))
    have hsign : 0 < n + 1 ∧ n + 1 ≤ 1 <<< 63 := by
      have hpow : 1 <<< 63 = 2 ^ 63 := rfl
      omega
    have hread := number_ofText true (Nat.le_trans hsign.2 (by decide)) h
    rw [htext, List.cons_append]
    change number true _ = _
    rw [hread, integerOf, if_pos rfl, if_pos hsign]
    rfl

end

/-! ### Values -/

theorem value_eq_valueWith (depth : Nat) :
    ∃ array object, value depth = valueWith array object := by
  cases depth with
  | zero => exact ⟨_, _, rfl⟩
  | succ depth => exact ⟨_, _, rfl⟩

theorem valueWith_bool (array object : Reader Json) (b : Bool) (rest : Bytes) :
    valueWith array object ((Json.bool b).encode ++ rest) = .ok (.bool b, rest) := by
  cases b with
  | true => rfl
  | false => rfl

theorem valueWith_str (array object : Reader Json) (text : String) (rest : Bytes) :
    valueWith array object ((Json.str text).encode ++ rest) = .ok (.str text, rest) := by
  obtain ⟨given, hgiven, hread⟩ := string_encodeString text rest
  rw [encode, hgiven, valueWith_quote, hread]
  rfl

/-- The name of a member is read up to its closing quote. -/
theorem exists_name (name : String) (rest : Bytes) :
    ∃ given, openName (encodeString name ++ rest) = .ok given ∧
      string given = .ok (name, rest) := by
  obtain ⟨given, hgiven, hread⟩ := string_encodeString name rest
  rw [hgiven]
  exact ⟨given, rfl, hread⟩

/-- The first byte of a value is neither space nor a closing bracket. -/
theorem opens_encode {v : Json} (h : AllWhole v) : Opens 0x5d v.encode := by
  obtain ⟨b, bytes, hencode, hkind⟩ := exists_first_byte h
  have hspace : isSpace b = false := by
    by_contra hspace
    simp only [isSpace, Bool.not_eq_false, Bool.or_eq_true, decide_eq_true_iff] at hspace
    rcases hspace with ((rfl | rfl) | rfl) | rfl <;> cases hkind
  refine ⟨b, bytes, ?_, ?_⟩
  · rw [hencode, skipSpace_cons hspace]
  · rintro rfl
    cases hkind

theorem opens_encodeMember (member : String × Json) : Opens 0x7d (encodeMember member) :=
  ⟨0x22, _, rfl, by decide⟩

/-- Elements that are put before those already read are all read, the last one in front. -/
theorem takesAll_map {α β : Type} {element : List β → Reader (List β)} (found : α → β)
    {write : α → Bytes} {list : List α}
    (h : ∀ a ∈ list, ∀ read, Takes element (write a) read (found a :: read)) (read : List β) :
    TakesAll element (list.map write) read ((list.map found).reverse ++ read) := by
  induction list generalizing read with
  | nil => exact .nil read
  | cons a list ih =>
    obtain ⟨ha, hlist⟩ := List.forall_mem_cons.1 h
    have hrest := ih hlist (found a :: read)
    rw [List.map_cons, List.map_cons, List.reverse_cons, List.append_assoc, List.singleton_append]
    exact .cons (ha read) hrest

theorem value_skipSpace (depth : Nat) (input : Bytes) :
    value depth (skipSpace input) = value depth input := by
  obtain ⟨array, object, hvalue⟩ := value_eq_valueWith depth
  rw [hvalue, valueWith, valueWith, skipSpace_skipSpace]

theorem ignoresSpace_itemOf (depth : Nat) : IgnoresSpace (itemOf (value depth)) := by
  intro read input
  rw [itemOf, itemOf, value_skipSpace]

/-- An array is read back if its items are. -/
theorem itemsWith_encode {depth : Nat} {items : List Json} (hwhole : ∀ item ∈ items, AllWhole item)
    (h : ∀ item ∈ items, ∀ rest, Ends rest → value depth (item.encode ++ rest) = .ok (item, rest))
    (rest : Bytes) : itemsWith (itemOf (value depth)) [] (encodeItems items ++ rest) =
      .ok (items.reverse, rest) := by
  have htakes : ∀ item ∈ items, ∀ read,
      Takes (itemOf (value depth)) item.encode read (item :: read) := by
    intro item hitem read rest hrest
    refine ⟨rest, ?_, hrest.skipSpace⟩
    rw [itemOf, h item hitem rest hrest]
    rfl
  have hall := takesAll_map id htakes []
  rw [List.append_nil, List.map_id] at hall
  rw [encodeItems_eq, parts_map, itemsWith_eq]
  refine enclosed_parts (.inl rfl) (ignoresSpace_itemOf depth) ?_ hall rest
  simp only [List.forall_mem_map]
  exact fun item hitem => opens_encode (hwhole item hitem)

/-- An object is read back if the values of its members are. -/
theorem membersWith_encode {depth : Nat} {members : List (String × Json)}
    (h : ∀ member ∈ members, ∀ rest, Ends rest →
      value depth (member.2.encode ++ rest) = .ok (member.2, rest)) (rest : Bytes) :
    membersWith (memberOf (value depth)) [] (encodeMembers members ++ rest) =
      .ok (members.reverse, rest) := by
  have htakes : ∀ member ∈ members, ∀ read,
      Takes (fromName (memberOf (value depth))) (encodeMember member) read (member :: read) := by
    intro member hmember read rest hrest
    obtain ⟨given, hopen, hname⟩ := exists_name member.1 (0x3a :: (member.2.encode ++ rest))
    have hcolon : colon (0x3a :: (member.2.encode ++ rest)) = .ok (member.2.encode ++ rest) := rfl
    refine ⟨rest, ?_, hrest.skipSpace⟩
    rw [encodeMember, List.append_assoc, List.cons_append]
    simp only [fromName, bind, Except.bind, hopen, memberOf, hname, hcolon,
      h member hmember rest hrest]
    rfl
  have hall := takesAll_map id htakes []
  rw [List.append_nil, List.map_id] at hall
  rw [encodeMembers_eq, parts_map, membersWith_eq]
  refine enclosed_parts (.inr rfl) (ignoresSpace_fromName _) ?_ hall rest
  simp only [List.forall_mem_map]
  exact fun member _ => opens_encodeMember member

/-- A value is read back, whatever may follow it. -/
theorem value_encode {depth : Nat} {v : Json} (h : Plain depth v) {rest : Bytes}
    (hrest : Ends rest) : value depth (v.encode ++ rest) = .ok (v, rest) := by
  induction h generalizing rest with
  | null depth =>
    obtain ⟨array, object, hvalue⟩ := value_eq_valueWith depth
    rw [hvalue]
    rfl
  | bool depth b =>
    obtain ⟨array, object, hvalue⟩ := value_eq_valueWith depth
    rw [hvalue, valueWith_bool]
  | int depth hlower hupper =>
    obtain ⟨array, object, hvalue⟩ := value_eq_valueWith depth
    rw [hvalue, valueWith_int _ _ hlower hupper hrest.endsToken]
  | str depth text =>
    obtain ⟨array, object, hvalue⟩ := value_eq_valueWith depth
    rw [hvalue, valueWith_str]
  | @arr depth items hitems ih =>
    have hread := itemsWith_encode (fun item hitem => (hitems item hitem).allWhole)
      (fun item hitem rest hrest => ih item hitem hrest) rest
    rw [encode, List.cons_append, value]
    change (itemsWith (itemOf (value depth)) [] (encodeItems items ++ rest)).map _ = _
    rw [hread]
    simp only [Except.map, List.reverse_reverse]
  | @obj depth members hmembers ih =>
    have hread := membersWith_encode
      (fun member hmember rest hrest => ih member hmember hrest) rest
    rw [encode, List.cons_append, value]
    change (membersWith (memberOf (value depth)) [] (encodeMembers members ++ rest)).map _ = _
    rw [hread]
    simp only [Except.map, List.reverse_reverse]

/-- The text that a value is written as has that value. -/
theorem parseTree_encode {v : Json} (h : Plain nestingLimit v) : parseTree v.encode = .ok v := by
  have hread := value_encode h ends_nil
  rw [List.append_nil] at hread
  rw [parseTree, hread]
  rfl

end FieldVault.Json
