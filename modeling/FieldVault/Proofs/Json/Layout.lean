import FieldVault.Proofs.Json.Members
import FieldVault.Proofs.Json.Numbers
import FieldVault.Proofs.Json.Spelling

/-!
# Values are read however they are laid out

A value can be written in many ways: with space around every token, and with the characters of its
names and texts spelled in any way. `Layout` is the grammar of these ways, for values in which no
more than a number of brackets are open at once. Whatever the layout, the value is read from it
(`Layout.isRead`), and so the text of a whole value has that value (`parseTree_of_layout`).
-/

set_option autoImplicit false

namespace FieldVault.Json

/-! ### The grammar -/

/-- Bytes that may stand between tokens. -/
def Blank (bytes : Bytes) : Prop := ∀ b ∈ bytes, isSpace b

/-- A member as it is laid out: its name and its value, the space before the name and behind it, and
what stands for the name between its quotes and for the value behind the colon. -/
structure MemberLayout where
  name : String
  value : Json
  before : Bytes
  spelled : Bytes
  between : Bytes
  text : Bytes

namespace MemberLayout

/-- The member that is laid out. -/
def member (m : MemberLayout) : String × Json := (m.name, m.value)

/-- The bytes of the member. -/
def bytes (m : MemberLayout) : Bytes :=
  m.before ++ 0x22 :: (m.spelled ++ 0x22 :: (m.between ++ 0x3a :: m.text))

/-- The name is spelled, with nothing but space around it. -/
structure Named (m : MemberLayout) : Prop where
  before : Blank m.before
  name : SpellsAll m.name.toList m.spelled
  between : Blank m.between

end MemberLayout

/-- The ways to lay out a value in which at most `depth` brackets are open at once. -/
inductive Layout : Nat → Json → Bytes → Prop where
  | space {depth : Nat} {v : Json} {before text after : Bytes} (hbefore : Blank before)
    (h : Layout depth v text) (hafter : Blank after) :
    Layout depth v (before ++ (text ++ after))
  | null (depth : Nat) : Layout depth .null (Bytes.ofText "null")
  | bool (depth : Nat) (b : Bool) :
    Layout depth (.bool b) (Bytes.ofText (if b then "true" else "false"))
  /-- A numeral that is read to its end, after its sign if it has one. -/
  | number (depth : Nat) {negative : Bool} {digits : Bytes} {v : Json}
    (h : number negative digits = .ok (v, [])) :
    Layout depth v ((if negative then [0x2d] else []) ++ digits)
  | str (depth : Nat) {text : String} {spelled : Bytes} (h : SpellsAll text.toList spelled) :
    Layout depth (.str text) (0x22 :: (spelled ++ [0x22]))
  | emptyArr (depth : Nat) {between : Bytes} (h : Blank between) :
    Layout (depth + 1) (.arr []) (0x5b :: (between ++ [0x5d]))
  | arr {depth : Nat} {items : List (Json × Bytes)}
    (h : ∀ item ∈ items, Layout depth item.1 item.2) :
    Layout (depth + 1) (.arr (items.map Prod.fst))
      (0x5b :: ([0x2c].intercalate (items.map Prod.snd) ++ [0x5d]))
  | emptyObj (depth : Nat) {between : Bytes} (h : Blank between) :
    Layout (depth + 1) (.obj []) (0x7b :: (between ++ [0x7d]))
  | obj {depth : Nat} {members : List MemberLayout} (hnames : ∀ m ∈ members, m.Named)
    (h : ∀ m ∈ members, Layout depth m.value m.text) :
    Layout (depth + 1) (.obj (members.map MemberLayout.member))
      (objectText (members.map MemberLayout.bytes))

/-! ### Space -/

theorem Blank.skipSpace {blank : Bytes} (h : Blank blank) (rest : Bytes) :
    skipSpace (blank ++ rest) = skipSpace rest :=
  List.dropWhile_append_of_pos h

/-- Space may follow a token. -/
theorem Blank.endsToken {blank rest : Bytes} (h : Blank blank) (hrest : EndsToken rest) :
    EndsToken (blank ++ rest) := by
  cases blank with
  | nil => exact hrest
  | cons b blank =>
    intro first bytes hfirst
    cases hfirst
    have hspace : isSpace b = true := h b List.mem_cons_self
    simp only [isSpace, Bool.or_eq_true, decide_eq_true_iff] at hspace
    rcases hspace with ((rfl | rfl) | rfl) | rfl <;> decide

/-! ### Reading layouts -/

/-- A text is read as a value, up to what follows it or to the space before that. -/
def IsRead (depth : Nat) (v : Json) (text : Bytes) : Prop :=
  ∀ rest, EndsToken rest → ∃ left, value depth (text ++ rest) = .ok (v, left) ∧
    skipSpace left = skipSpace rest

variable {depth : Nat} {v : Json} {text : Bytes}

/-- What a value reads, whatever follows. -/
theorem isRead_of_forall (h : ∀ rest, value depth (text ++ rest) = .ok (v, rest)) :
    IsRead depth v text :=
  fun rest _ => ⟨rest, h rest, rfl⟩

theorem IsRead.space {before after : Bytes} (hbefore : Blank before) (h : IsRead depth v text)
    (hafter : Blank after) : IsRead depth v (before ++ (text ++ after)) := by
  intro rest hrest
  obtain ⟨left, hread, hleft⟩ := h (after ++ rest) (hafter.endsToken hrest)
  refine ⟨left, ?_, hleft.trans (hafter.skipSpace rest)⟩
  rw [← value_skipSpace, List.append_assoc, List.append_assoc, hbefore.skipSpace, value_skipSpace]
  exact hread

/-- A number begins with a digit. -/
theorem exists_digit_of_number {negative : Bool} {digits : Bytes}
    (h : number negative digits = .ok (v, [])) :
    ∃ b bytes, digits = b :: bytes ∧ isDigit b := by
  obtain ⟨⟨whole, rest⟩, hwhole, -⟩ := bind_eq_ok h
  cases digits with
  | nil => cases hwhole
  | cons b bytes =>
    refine ⟨b, bytes, rfl, ?_⟩
    rw [wholePart.eq_def] at hwhole
    dsimp only at hwhole
    split at hwhole
    · assumption
    · cases hwhole

theorem isRead_number {negative : Bool} {digits : Bytes}
    (h : number negative digits = .ok (v, [])) :
    IsRead depth v ((if negative then [0x2d] else []) ++ digits) := by
  intro rest hrest
  have hread := number_append h fun _ => hrest
  obtain ⟨array, object, hvalue⟩ := value_eq_valueWith depth
  refine ⟨rest, ?_, rfl⟩
  rw [hvalue]
  cases negative with
  | true => exact hread
  | false =>
    obtain ⟨b, bytes, rfl, hb⟩ := exists_digit_of_number h
    exact (valueWith_digit array object hb (bytes ++ rest)).trans hread

theorem isRead_str {text : String} {spelled : Bytes} (h : SpellsAll text.toList spelled) :
    IsRead depth (.str text) (0x22 :: (spelled ++ [0x22])) := by
  obtain ⟨array, object, hvalue⟩ := value_eq_valueWith depth
  refine isRead_of_forall fun rest => ?_
  rw [hvalue, List.cons_append, List.append_assoc, valueWith_quote, List.singleton_append,
    string_of_spellsAll h]
  rfl

/-! ### Arrays -/

/-- No value begins with the bracket that closes an array. -/
theorem IsRead.opens (h : IsRead depth v text) : Opens 0x5d text := by
  obtain ⟨left, hread, -⟩ := h [] fun b bytes hnil => nomatch hnil
  obtain ⟨array, object, hvalue⟩ := value_eq_valueWith depth
  rw [hvalue, List.append_nil, valueWith] at hread
  cases hspace : skipSpace text with
  | nil =>
    rw [hspace] at hread
    cases hread
  | cons b bytes =>
    rw [hspace] at hread
    refine ⟨b, bytes, hspace, ?_⟩
    rintro rfl
    cases hread

theorem IsRead.takes (h : IsRead depth v text) (read : List Json) :
    Takes (itemOf (value depth)) text read (v :: read) := by
  intro rest hrest
  obtain ⟨left, hread, hleft⟩ := h rest hrest.endsToken
  refine ⟨left, ?_, hleft.trans hrest.skipSpace⟩
  rw [itemOf, hread]
  rfl

theorem isRead_emptyArr {between : Bytes} (h : Blank between) :
    IsRead (depth + 1) (.arr []) (0x5b :: (between ++ [0x5d])) := by
  refine isRead_of_forall fun rest => ?_
  have hspace : skipSpace (between ++ [0x5d] ++ rest) = 0x5d :: rest := by
    rw [List.append_assoc, h.skipSpace]
    rfl
  rw [List.cons_append, value]
  change (itemsWith (itemOf (value depth)) [] (between ++ [0x5d] ++ rest)).map _ = _
  rw [itemsWith, hspace]
  rfl

theorem isRead_arr {items : List (Json × Bytes)} (h : ∀ item ∈ items, IsRead depth item.1 item.2) :
    IsRead (depth + 1) (.arr (items.map Prod.fst))
      (0x5b :: ([0x2c].intercalate (items.map Prod.snd) ++ [0x5d])) := by
  refine isRead_of_forall fun rest => ?_
  have hopens : ∀ text ∈ items.map Prod.snd, Opens 0x5d text := by
    simp only [List.forall_mem_map]
    exact fun item hitem => (h item hitem).opens
  have hall := takesAll_map Prod.fst (fun item hitem read => (h item hitem).takes read) []
  have hread := enclosed_parts (.inl rfl) (ignoresSpace_itemOf depth) hopens hall rest
  rw [← itemsWith_eq, parts_eq_intercalate, List.append_nil] at hread
  rw [List.cons_append, value]
  change (itemsWith (itemOf (value depth)) []
    ([0x2c].intercalate (items.map Prod.snd) ++ [0x5d] ++ rest)).map _ = _
  rw [hread]
  simp only [Except.map, List.reverse_reverse]

/-! ### Objects -/

section

variable {m : MemberLayout}

theorem opens_memberLayout (h : m.Named) : Opens 0x7d m.bytes := by
  have hopen : skipSpace m.bytes =
      0x22 :: (m.spelled ++ 0x22 :: (m.between ++ 0x3a :: m.text)) := by
    rw [MemberLayout.bytes, h.before.skipSpace, skipSpace_cons rfl]
  exact ⟨_, _, hopen, by decide⟩

/-- A member is read if its value is. -/
theorem takes_memberLayout (h : m.Named) (hvalue : IsRead depth m.value m.text)
    (read : List (String × Json)) :
    Takes (fromName (memberOf (value depth))) m.bytes read (m.member :: read) := by
  intro rest hrest
  obtain ⟨left, hread, hleft⟩ := hvalue rest hrest.endsToken
  refine ⟨left, ?_, hleft.trans hrest.skipSpace⟩
  let afterColon := m.text ++ rest
  let afterName := m.between ++ 0x3a :: afterColon
  let afterQuote := m.spelled ++ 0x22 :: afterName
  have hbytes : m.bytes ++ rest = m.before ++ 0x22 :: afterQuote := by
    simp only [MemberLayout.bytes, List.append_assoc, List.cons_append, afterQuote, afterName,
      afterColon]
  have hquote : openName (m.before ++ 0x22 :: afterQuote) = .ok afterQuote := by
    rw [openName, h.before.skipSpace]
    rfl
  have hname : string afterQuote = .ok (m.name, afterName) := string_of_spellsAll h.name afterName
  have hcolon : colon afterName = .ok afterColon := by
    rw [colon, h.between.skipSpace]
    rfl
  rw [hbytes, fromName, hquote]
  simp only [bind, Except.bind, memberOf, hname, hcolon]
  rw [hread]
  rfl

end

theorem isRead_emptyObj {between : Bytes} (h : Blank between) :
    IsRead (depth + 1) (.obj []) (0x7b :: (between ++ [0x7d])) := by
  refine isRead_of_forall fun rest => ?_
  have hspace : skipSpace (between ++ [0x7d] ++ rest) = 0x7d :: rest := by
    rw [List.append_assoc, h.skipSpace]
    rfl
  rw [List.cons_append, value]
  change (membersWith (memberOf (value depth)) [] (between ++ [0x7d] ++ rest)).map _ = _
  rw [membersWith, hspace]
  rfl

theorem isRead_obj {members : List MemberLayout} (hnames : ∀ m ∈ members, m.Named)
    (h : ∀ m ∈ members, IsRead depth m.value m.text) :
    IsRead (depth + 1) (.obj (members.map MemberLayout.member))
      (objectText (members.map MemberLayout.bytes)) := by
  refine isRead_of_forall fun rest => ?_
  have hopens : ∀ text ∈ members.map MemberLayout.bytes, Opens 0x7d text := by
    simp only [List.forall_mem_map]
    exact fun m hm => opens_memberLayout (hnames m hm)
  have hall := takesAll_map MemberLayout.member
    (fun m hm read => takes_memberLayout (hnames m hm) (h m hm) read) []
  have hread := enclosed_parts (.inr rfl) (ignoresSpace_fromName _) hopens hall rest
  rw [← membersWith_eq, parts_eq_intercalate, List.append_nil] at hread
  rw [objectText, List.cons_append, value]
  change (membersWith (memberOf (value depth)) []
    ([0x2c].intercalate (members.map MemberLayout.bytes) ++ [0x7d] ++ rest)).map _ = _
  rw [hread]
  simp only [Except.map, List.reverse_reverse]

/-! ### Values -/

/-- However a value is laid out, it is read. -/
theorem Layout.isRead (h : Layout depth v text) : IsRead depth v text := by
  induction h with
  | space hbefore _ hafter ih => exact ih.space hbefore hafter
  | null depth =>
    obtain ⟨array, object, hvalue⟩ := value_eq_valueWith depth
    refine isRead_of_forall fun rest => ?_
    rw [hvalue]
    rfl
  | bool depth b =>
    obtain ⟨array, object, hvalue⟩ := value_eq_valueWith depth
    refine isRead_of_forall fun rest => ?_
    rw [hvalue]
    exact valueWith_bool array object b rest
  | number _ h => exact isRead_number h
  | str _ h => exact isRead_str h
  | emptyArr _ h => exact isRead_emptyArr h
  | arr _ ih => exact isRead_arr ih
  | emptyObj _ h => exact isRead_emptyObj h
  | obj hnames _ ih => exact isRead_obj hnames ih

/-- The text that a value is laid out as has that value. -/
theorem parseTree_of_layout (h : Layout nestingLimit v text) : parseTree text = .ok v := by
  obtain ⟨left, hread, hleft⟩ := h.isRead [] fun b bytes hnil => nomatch hnil
  rw [List.append_nil] at hread
  have hempty : skipSpace left = [] := hleft
  rw [parseTree, hread]
  change (if (skipSpace left).isEmpty then _ else _) = _
  rw [hempty]
  rfl

end FieldVault.Json
