import FieldVault.Json.Writer
import FieldVault.Proofs.Json.Strings

/-!
# No two values have one compact form

A value whose numbers are integers is known by its compact form, whatever is nested in it
(`encode_injective`). The form of a value says where it ends: a string at its closing quote, an
array or an object at its bracket, and an integer where something follows that cannot be part of a
number. So a value can be told from the front of a longer text (`Delimited`), and what holds of the
items and members of a value holds of the value.
-/

set_option autoImplicit false

namespace FieldVault.Json

/-- Every number in a value is an integer. -/
inductive AllWhole : Json → Prop where
  | null : AllWhole .null
  | bool (b : Bool) : AllWhole (.bool b)
  | int (i : Int) : AllWhole (.int i)
  | str (text : String) : AllWhole (.str text)
  | arr {items : List Json} (h : ∀ item ∈ items, AllWhole item) : AllWhole (.arr items)
  | obj {members : List (String × Json)} (h : ∀ member ∈ members, AllWhole member.2) :
    AllWhole (.obj members)

/-! ### Integers -/

/-- Whether a byte can stand in an integer. -/
def isIntegerByte (b : UInt8) : Bool := b = 0x2d || (0x30 ≤ b && b ≤ 0x39)

/-- An integer ends before a text. -/
def Stops (rest : Bytes) : Prop := ∀ b bytes, rest = b :: bytes → isIntegerByte b = false

theorem stops_nil : Stops [] := by
  intro b bytes h
  cases h

theorem stops_cons {b : UInt8} (h : isIntegerByte b = false) (bytes : Bytes) :
    Stops (b :: bytes) := by
  intro first rest hfirst
  cases hfirst
  exact h

/-- Two integers that stop are cut off at the same place. -/
theorem append_inj_of_stops {first second rest rest' : Bytes}
    (hfirst : ∀ b ∈ first, isIntegerByte b) (hsecond : ∀ b ∈ second, isIntegerByte b)
    (hrest : Stops rest) (hrest' : Stops rest') (h : first ++ rest = second ++ rest') :
    first = second ∧ rest = rest' := by
  induction first generalizing second with
  | nil =>
    cases second with
    | nil => exact ⟨rfl, h⟩
    | cons b second =>
      -- the rest of the first would start within the second
      have hstop := hrest b _ h
      rw [hsecond b List.mem_cons_self] at hstop
      cases hstop
  | cons a first ih =>
    obtain ⟨ha, hfirst⟩ := List.forall_mem_cons.1 hfirst
    cases second with
    | nil =>
      have hstop := hrest' a _ h.symm
      rw [ha] at hstop
      cases hstop
    | cons b second =>
      obtain ⟨-, hsecond⟩ := List.forall_mem_cons.1 hsecond
      rw [List.cons_append, List.cons_append] at h
      obtain ⟨hhead, htail⟩ := List.cons.inj h
      obtain ⟨hsame, hrests⟩ := ih hfirst hsecond htail
      rw [hhead, hsame]
      exact ⟨rfl, hrests⟩

/-- The characters of an integer. -/
def IsIntegerChar (c : Char) : Prop := c = '-' ∨ c.isDigit

theorem utf8EncodeChar_digit {n : Nat} (h : n < 10) :
    String.utf8EncodeChar (Char.ofNat (48 + n)) = [UInt8.ofNat (48 + n)] ∧
      isIntegerByte (UInt8.ofNat (48 + n)) = true := by
  revert n
  decide

theorem exists_digit {c : Char} (h : c.isDigit) : ∃ n < 10, c = Char.ofNat (48 + n) := by
  rw [Char.isDigit, Bool.and_eq_true, decide_eq_true_iff, decide_eq_true_iff] at h
  have hlower : 48 ≤ c.toNat := UInt32.le_iff_toNat_le.1 h.1
  have hupper : c.toNat ≤ 57 := UInt32.le_iff_toNat_le.1 h.2
  refine ⟨c.toNat - 48, by omega, ?_⟩
  rw [Nat.add_sub_cancel' hlower, Char.ofNat_toNat]

theorem utf8EncodeChar_of_isIntegerChar {c : Char} (h : IsIntegerChar c) :
    ∃ b, String.utf8EncodeChar c = [b] ∧ isIntegerByte b := by
  rcases h with rfl | hdigit
  · exact ⟨0x2d, rfl, rfl⟩
  · obtain ⟨n, hn, rfl⟩ := exists_digit hdigit
    obtain ⟨hencode, hbyte⟩ := utf8EncodeChar_digit hn
    exact ⟨_, hencode, hbyte⟩

theorem isIntegerByte_of_mem_ofText {text : String} (h : ∀ c ∈ text.toList, IsIntegerChar c) :
    ∀ b ∈ Bytes.ofText text, isIntegerByte b := by
  intro b hb
  rw [Bytes.ofText_eq_flatMap] at hb
  obtain ⟨c, hc, hbyte⟩ := List.mem_flatMap.1 hb
  obtain ⟨first, hencode, hfirst⟩ := utf8EncodeChar_of_isIntegerChar (h c hc)
  rw [hencode, List.mem_singleton] at hbyte
  rw [hbyte]
  exact hfirst

theorem isDigit_of_mem_repr {n : Nat} {c : Char} (h : c ∈ (Nat.repr n).toList) : c.isDigit := by
  rw [Nat.repr_eq_ofList_toDigits, String.toList_ofList] at h
  exact Nat.isDigit_of_mem_toDigits (by decide) (by decide) h

theorem eq_of_repr_eq {m n : Nat} (h : Nat.repr m = Nat.repr n) : m = n := by
  rw [Nat.repr_eq_ofList_toDigits, Nat.repr_eq_ofList_toDigits] at h
  have hdigits := congrArg (Nat.ofDigitChars 10 · 0) (String.ofList_injective h)
  rwa [Nat.ofDigitChars_ten_toDigits, Nat.ofDigitChars_ten_toDigits] at hdigits

/-- A negative integer is written with its sign. -/
theorem toList_toString_negSucc (n : Nat) :
    (toString (Int.negSucc n)).toList = '-' :: (Nat.repr (n + 1)).toList := String.toList_append

theorem isIntegerChar_of_mem_toString {i : Int} {c : Char} (h : c ∈ (toString i).toList) :
    IsIntegerChar c := by
  cases i with
  | ofNat n => exact .inr (isDigit_of_mem_repr h)
  | negSucc n =>
    rw [toList_toString_negSucc] at h
    rcases List.mem_cons.1 h with rfl | hdigit
    · exact .inl rfl
    · exact .inr (isDigit_of_mem_repr hdigit)

/-- An integer that is written without a sign is not written as a negative one. -/
theorem toString_ofNat_ne_negSucc (m n : Nat) :
    toString (Int.ofNat m) ≠ toString (Int.negSucc n) := by
  intro h
  have hsign : '-' ∈ (toString (Int.ofNat m)).toList := by
    rw [h, toList_toString_negSucc]
    exact List.mem_cons_self
  have hdigit := isDigit_of_mem_repr hsign
  cases hdigit

theorem eq_of_toString_eq {i j : Int} (h : toString i = toString j) : i = j := by
  cases i with
  | ofNat m =>
    cases j with
    | ofNat n => exact congrArg Int.ofNat (eq_of_repr_eq h)
    | negSucc n => exact absurd h (toString_ofNat_ne_negSucc m n)
  | negSucc m =>
    cases j with
    | ofNat n => exact absurd h.symm (toString_ofNat_ne_negSucc n m)
    | negSucc n =>
      have hlist := congrArg String.toList h
      rw [toList_toString_negSucc, toList_toString_negSucc] at hlist
      have hdigits := String.toList_injective (List.cons.inj hlist).2
      exact congrArg Int.negSucc (Nat.succ.inj (eq_of_repr_eq hdigits))

theorem toString_ne_empty (i : Int) : toString i ≠ "" := by
  intro h
  cases i with
  | ofNat n => exact Nat.repr_ne_empty h
  | negSucc n =>
    have hlist := congrArg String.toList h
    rw [toList_toString_negSucc] at hlist
    cases hlist

theorem encode_int_injective {i j : Int} {rest rest' : Bytes} (hrest : Stops rest)
    (hrest' : Stops rest') (h : (Json.int i).encode ++ rest = (Json.int j).encode ++ rest') :
    i = j ∧ rest = rest' := by
  rw [encode, encode] at h
  obtain ⟨hsame, hrests⟩ := append_inj_of_stops
    (isIntegerByte_of_mem_ofText fun _ hc => isIntegerChar_of_mem_toString hc)
    (isIntegerByte_of_mem_ofText fun _ hc => isIntegerChar_of_mem_toString hc) hrest hrest' h
  exact ⟨eq_of_toString_eq (Bytes.ofText_injective hsame), hrests⟩

/-! ### Strings -/

theorem encodeString_injective {first second : String} {rest rest' : Bytes}
    (h : encodeString first ++ rest = encodeString second ++ rest') :
    first = second ∧ rest = rest' := by
  obtain ⟨given, hgiven, hread⟩ := string_encodeString first rest
  obtain ⟨given', hgiven', hread'⟩ := string_encodeString second rest'
  rw [hgiven, hgiven'] at h
  -- both are read from what stands behind the quote
  rw [(List.cons.inj h).2, hread'] at hread
  cases hread
  exact ⟨rfl, rfl⟩

/-! ### The first byte -/

/-- What a value is. -/
inductive Kind where
  | null
  | bool
  | number
  | str
  | arr
  | obj
deriving DecidableEq

/-- What a value is. -/
def kind : Json → Kind
  | .null => .null
  | .bool _ => .bool
  | .int _ => .number
  | .double _ => .number
  | .str _ => .str
  | .arr _ => .arr
  | .obj _ => .obj

/-- What a value is that starts with a byte. -/
def Kind.ofByte? (b : UInt8) : Option Kind :=
  if b = 0x6e then some .null
  else if b = 0x74 ∨ b = 0x66 then some .bool
  else if b = 0x22 then some .str
  else if b = 0x5b then some .arr
  else if b = 0x7b then some .obj
  else if isIntegerByte b then some .number
  else none

theorem ofByte?_of_isIntegerByte {b : UInt8} (h : isIntegerByte b) :
    Kind.ofByte? b = some .number := by
  have hne (other : UInt8) (hother : isIntegerByte other = false) : b ≠ other := by
    rintro rfl
    rw [h] at hother
    cases hother
  rw [Kind.ofByte?, if_neg (hne _ rfl), if_neg (not_or.2 ⟨hne _ rfl, hne _ rfl⟩),
    if_neg (hne _ rfl), if_neg (hne _ rfl), if_neg (hne _ rfl), if_pos h]

/-- The first byte of a value tells what it is. -/
theorem exists_first_byte {value : Json} (h : AllWhole value) :
    ∃ b bytes, value.encode = b :: bytes ∧ Kind.ofByte? b = some value.kind := by
  cases h with
  | null => exact ⟨0x6e, [0x75, 0x6c, 0x6c], rfl, rfl⟩
  | bool b =>
    cases b with
    | true => exact ⟨0x74, [0x72, 0x75, 0x65], rfl, rfl⟩
    | false => exact ⟨0x66, [0x61, 0x6c, 0x73, 0x65], rfl, rfl⟩
  | int i =>
    have hbytes : ∀ b ∈ Bytes.ofText (toString i), isIntegerByte b :=
      isIntegerByte_of_mem_ofText fun _ hc => isIntegerChar_of_mem_toString hc
    rw [encode]
    cases htext : Bytes.ofText (toString i) with
    | nil => exact absurd (Bytes.ofText_injective htext : toString i = "") (toString_ne_empty i)
    | cons b bytes =>
      rw [htext] at hbytes
      exact ⟨b, bytes, rfl, ofByte?_of_isIntegerByte (hbytes b List.mem_cons_self)⟩
  | str text =>
    rw [encode, encodeString]
    exact ⟨0x22, _, rfl, rfl⟩
  | arr _ =>
    rw [encode]
    exact ⟨0x5b, _, rfl, rfl⟩
  | obj _ =>
    rw [encode]
    exact ⟨0x7b, _, rfl, rfl⟩

theorem kind_eq_of_encode {v w : Json} {rest rest' : Bytes} (hv : AllWhole v) (hw : AllWhole w)
    (h : v.encode ++ rest = w.encode ++ rest') : v.kind = w.kind := by
  obtain ⟨a, bytes, hencode, hkind⟩ := exists_first_byte hv
  obtain ⟨b, bytes', hencode', hkind'⟩ := exists_first_byte hw
  rw [hencode, hencode', List.cons_append, List.cons_append] at h
  rw [(List.cons.inj h).1, hkind'] at hkind
  exact (Option.some.inj hkind).symm

/-! ### Items and members -/

section Delimited

variable {α : Type} {write : α → Bytes} {good : α → Prop} {close : UInt8} {rest rest' : Bytes}

/-- What is written can be told from the front of a text, among all that is good, if what follows
is no part of an integer. -/
def Delimited (write : α → Bytes) (good : α → Prop) (a : α) : Prop :=
  ∀ b rest rest', good b → Stops rest → Stops rest' → write a ++ rest = write b ++ rest' →
    a = b ∧ rest = rest'

/-- What stands behind the first part of an array or an object: the others, and the bracket. -/
def followers (write : α → Bytes) (close : UInt8) : List α → Bytes
  | [] => [close]
  | next :: others => 0x2c :: (write next ++ followers write close others)

theorem stops_followers (hclose : isIntegerByte close = false) (parts : List α) (rest : Bytes) :
    Stops (followers write close parts ++ rest) := by
  cases parts with
  | nil => exact stops_cons hclose rest
  | cons next others => exact stops_cons rfl _

/-- A comma or a bracket behind each part says whether there is another one. -/
theorem followers_injective (hclose : isIntegerByte close = false) (hcomma : close ≠ 0x2c)
    {first second : List α} (hfirst : ∀ a ∈ first, Delimited write good a)
    (hsecond : ∀ b ∈ second, good b)
    (h : followers write close first ++ rest = followers write close second ++ rest') :
    first = second ∧ rest = rest' := by
  induction first generalizing second with
  | nil =>
    cases second with
    | nil => exact ⟨rfl, (List.cons.inj h).2⟩
    | cons b second => exact absurd (List.cons.inj h).1 hcomma
  | cons a first ih =>
    cases second with
    | nil => exact absurd (List.cons.inj h).1.symm hcomma
    | cons b second =>
      obtain ⟨ha, hfirst⟩ := List.forall_mem_cons.1 hfirst
      obtain ⟨hb, hsecond⟩ := List.forall_mem_cons.1 hsecond
      rw [followers, followers, List.cons_append, List.cons_append, List.append_assoc,
        List.append_assoc] at h
      obtain ⟨hsame, htails⟩ := ha b _ _ hb (stops_followers hclose first rest)
        (stops_followers hclose second rest') (List.cons.inj h).2
      obtain ⟨hothers, hrests⟩ := ih hfirst hsecond htails
      rw [hsame, hothers]
      exact ⟨rfl, hrests⟩

/-- The parts of an array or an object. -/
def parts (write : α → Bytes) (close : UInt8) : List α → Bytes
  | [] => [close]
  | first :: others => write first ++ followers write close others

/-- No part starts with the bracket. -/
theorem parts_injective (hclose : isIntegerByte close = false) (hcomma : close ≠ 0x2c)
    (hbracket : ∀ a, good a → ∀ rest rest', close :: rest ≠ write a ++ rest')
    {first second : List α} (hgood : ∀ a ∈ first, good a)
    (hfirst : ∀ a ∈ first, Delimited write good a) (hsecond : ∀ b ∈ second, good b)
    (h : parts write close first ++ rest = parts write close second ++ rest') :
    first = second ∧ rest = rest' := by
  cases first with
  | nil =>
    cases second with
    | nil => exact ⟨rfl, (List.cons.inj h).2⟩
    | cons b second =>
      rw [parts, parts, List.append_assoc] at h
      exact absurd h (hbracket b (hsecond b List.mem_cons_self) rest _)
  | cons a first =>
    cases second with
    | nil =>
      rw [parts, parts, List.append_assoc] at h
      exact absurd h.symm (hbracket a (hgood a List.mem_cons_self) rest' _)
    | cons b second =>
      obtain ⟨ha, hfirst⟩ := List.forall_mem_cons.1 hfirst
      obtain ⟨hb, hsecond⟩ := List.forall_mem_cons.1 hsecond
      rw [parts, parts, List.append_assoc, List.append_assoc] at h
      obtain ⟨hsame, htails⟩ := ha b _ _ hb (stops_followers hclose first rest)
        (stops_followers hclose second rest') h
      obtain ⟨hothers, hrests⟩ := followers_injective hclose hcomma hfirst hsecond htails
      rw [hsame, hothers]
      exact ⟨rfl, hrests⟩

end Delimited

theorem encodeItems_eq (items : List Json) : encodeItems items = parts encode 0x5d items := by
  cases items with
  | nil => rfl
  | cons item items =>
    induction items generalizing item with
    | nil => rfl
    | cons next items ih =>
      rw [encodeItems, ih]
      rfl

/-- A member as it is written. -/
def encodeMember (member : String × Json) : Bytes :=
  encodeString member.1 ++ 0x3a :: member.2.encode

theorem encodeMembers_eq (members : List (String × Json)) :
    encodeMembers members = parts encodeMember 0x7d members := by
  cases members with
  | nil => rfl
  | cons member members =>
    induction members generalizing member with
    | nil => rfl
    | cons next members ih =>
      rw [encodeMembers, ih]
      rfl

theorem encodeItems_injective {items others : List Json} {rest rest' : Bytes}
    (hwhole : ∀ item ∈ items, AllWhole item)
    (hitems : ∀ item ∈ items, Delimited encode AllWhole item)
    (hothers : ∀ item ∈ others, AllWhole item)
    (h : encodeItems items ++ rest = encodeItems others ++ rest') :
    items = others ∧ rest = rest' := by
  rw [encodeItems_eq, encodeItems_eq] at h
  refine parts_injective rfl (by decide) ?_ hwhole hitems hothers h
  intro item hitem rest rest' hbracket
  obtain ⟨b, bytes, hencode, hkind⟩ := exists_first_byte hitem
  rw [hencode] at hbracket
  rw [← (List.cons.inj hbracket).1] at hkind
  cases hkind

/-- A name can be told from what follows, and so a member is told by its value. -/
theorem delimited_encodeMember {member : String × Json}
    (h : Delimited encode AllWhole member.2) :
    Delimited encodeMember (fun other => AllWhole other.2) member := by
  intro other rest rest' hother hrest hrest' heq
  rw [encodeMember, encodeMember, List.append_assoc, List.append_assoc] at heq
  obtain ⟨hname, hvalues⟩ := encodeString_injective heq
  obtain ⟨hvalue, hrests⟩ := h other.2 rest rest' hother hrest hrest' (List.cons.inj hvalues).2
  exact ⟨Prod.ext hname hvalue, hrests⟩

theorem encodeMembers_injective {members others : List (String × Json)} {rest rest' : Bytes}
    (hwhole : ∀ member ∈ members, AllWhole member.2)
    (hmembers : ∀ member ∈ members, Delimited encode AllWhole member.2)
    (hothers : ∀ member ∈ others, AllWhole member.2)
    (h : encodeMembers members ++ rest = encodeMembers others ++ rest') :
    members = others ∧ rest = rest' := by
  rw [encodeMembers_eq, encodeMembers_eq] at h
  refine parts_injective rfl (by decide) ?_ hwhole
    (fun member hmember => delimited_encodeMember (hmembers member hmember)) hothers h
  intro member _ rest rest' hbracket
  rw [encodeMember, encodeString] at hbracket
  cases (List.cons.inj hbracket).1

/-! ### Values -/

/-- Every value whose numbers are integers can be told from the front of a text. -/
theorem AllWhole.delimited {value : Json} (h : AllWhole value) :
    Delimited encode AllWhole value := by
  induction h with
  | null =>
    intro other rest rest' hother _ _ heq
    have hkind := kind_eq_of_encode .null hother heq
    -- what starts with the same byte is of the same kind, here and in the other cases
    cases hother <;> cases hkind
    exact ⟨rfl, List.append_cancel_left heq⟩
  | bool b =>
    intro other rest rest' hother _ _ heq
    have hkind := kind_eq_of_encode (.bool b) hother heq
    cases hother <;> cases hkind
    rename_i c
    cases b with
    | true =>
      cases c with
      | true => exact ⟨rfl, List.append_cancel_left heq⟩
      | false => cases (List.cons.inj heq).1
    | false =>
      cases c with
      | true => cases (List.cons.inj heq).1
      | false => exact ⟨rfl, List.append_cancel_left heq⟩
  | int i =>
    intro other rest rest' hother hrest hrest' heq
    have hkind := kind_eq_of_encode (.int i) hother heq
    cases hother <;> cases hkind
    obtain ⟨hsame, hrests⟩ := encode_int_injective hrest hrest' heq
    exact ⟨congrArg Json.int hsame, hrests⟩
  | str text =>
    intro other rest rest' hother _ _ heq
    have hkind := kind_eq_of_encode (.str text) hother heq
    cases hother <;> cases hkind
    rw [encode, encode] at heq
    obtain ⟨hsame, hrests⟩ := encodeString_injective heq
    exact ⟨congrArg Json.str hsame, hrests⟩
  | arr hitems ih =>
    intro other rest rest' hother _ _ heq
    have hkind := kind_eq_of_encode (.arr hitems) hother heq
    cases hother <;> cases hkind
    rename_i others hothers
    rw [encode, encode] at heq
    obtain ⟨hsame, hrests⟩ := encodeItems_injective hitems ih hothers (List.cons.inj heq).2
    exact ⟨congrArg Json.arr hsame, hrests⟩
  | obj hmembers ih =>
    intro other rest rest' hother _ _ heq
    have hkind := kind_eq_of_encode (.obj hmembers) hother heq
    cases hother <;> cases hkind
    rename_i others hothers
    rw [encode, encode] at heq
    obtain ⟨hsame, hrests⟩ := encodeMembers_injective hmembers ih hothers (List.cons.inj heq).2
    exact ⟨congrArg Json.obj hsame, hrests⟩

/-- Different values have different compact forms. -/
theorem encode_injective {v w : Json} (hv : AllWhole v) (hw : AllWhole w)
    (h : v.encode = w.encode) : v = w := by
  have happend : v.encode ++ [] = w.encode ++ [] := by rw [h]
  exact (hv.delimited w [] [] hw stops_nil stops_nil happend).1

end FieldVault.Json
