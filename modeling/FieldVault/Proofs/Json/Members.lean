import FieldVault.Message
import FieldVault.Proofs.Json.Entries
import FieldVault.Proofs.Json.Passing

/-!
# Records are read in any order

A record is an object, and its text is the texts of its members between braces (`objectText`). In
whatever order they come, the values of the fields are read back, and members of other names make no
difference (`parseRecord_objectText`): reading a member with the name of a field puts its value
before those already read, reading another leaves them, and at the end each field has one value.
-/

set_option autoImplicit false

namespace FieldVault.Json

/-! ### Values of fields -/

/-- A value that a field can have: any text, a count of 64 bits, and a document, which is canonical,
has only integers of 64 bits for numbers, and fits with its brackets inside that of the record. -/
def FieldValue.Fits : FieldValue → Prop
  | .text _ => True
  | .flag _ => True
  | .count n => n < 2 ^ 64
  | .any v => v.canonical = v ∧ Plain 126 v

/-- The value of a field is read back. -/
theorem fieldValue_encode {v : FieldValue} (h : v.Fits) {rest : Bytes} (hrest : Ends rest) :
    fieldValue (nestingLimit - 1) v.type (v.toJson.encode ++ rest) = .ok (v, rest) := by
  cases v with
  | text text =>
    rw [FieldValue.type, FieldValue.toJson, fieldValue, scalar, valueWith_str]
    rfl
  | flag b =>
    rw [FieldValue.type, FieldValue.toJson, fieldValue, scalar, valueWith_bool]
    rfl
  | count n =>
    have hlower : -2 ^ 63 ≤ (n : Int) := by omega
    have hupper : (n : Int) < 2 ^ 64 := by exact_mod_cast h
    rw [FieldValue.type, FieldValue.toJson, fieldValue, scalar,
      valueWith_int _ _ hlower hupper hrest.endsToken]
    simp only [bind, Except.bind, Int.natCast_nonneg, if_true, Int.toNat_natCast]
    rfl
  | any v =>
    obtain ⟨hcanonical, hplain⟩ := h
    have hread : value (nestingLimit - 1) (v.encode ++ rest) = .ok (v, rest) :=
      value_encode hplain hrest
    rw [FieldValue.type, FieldValue.toJson, fieldValue]
    simp only [Except.map, hread, hcanonical]

/-! ### Members -/

/-- The text of an object with members of the given texts. -/
def objectText (members : List Bytes) : Bytes := 0x7b :: ([0x2c].intercalate members ++ [0x7d])

theorem parts_eq_intercalate (closing : UInt8) (texts : List Bytes) :
    parts id closing texts = [0x2c].intercalate texts ++ [closing] := by
  cases texts with
  | nil => rfl
  | cons text texts =>
    induction texts generalizing text with
    | nil => simp [parts, followers]
    | cons next texts ih =>
      have hrest := ih next
      simp only [parts, id_eq] at hrest
      simp only [parts, followers, id_eq, List.intercalate_cons_cons, List.append_assoc,
        List.cons_append, List.nil_append, hrest]

/-- The text of a member with the value of a field. -/
def memberText (entry : String × FieldValue) : Bytes := encodeMember (entry.1, entry.2.toJson)

/-- A member of which a record knows nothing: its name is that of no field, and its value is any
value, both in any form they can be written. -/
def IsForeign (fields : Fields) (member : Bytes) : Prop :=
  ∃ literal name text v, member = 0x22 :: (literal ++ 0x3a :: text) ∧
    string literal = .ok (name, []) ∧ name ∉ fields.map Prod.fst ∧ parseTree text = .ok v

/-- A member in its compact form is foreign if its name is. -/
theorem isForeign_encodeMember {fields : Fields} {member : String × Json}
    (hname : member.1 ∉ fields.map Prod.fst) (hplain : Plain nestingLimit member.2) :
    IsForeign fields (encodeMember member) := by
  obtain ⟨literal, hliteral, hread⟩ := string_encodeString member.1 []
  rw [List.append_nil] at hliteral
  refine ⟨literal, member.1, member.2.encode, member.2, ?_, hread, hname, parseTree_encode hplain⟩
  rw [encodeMember, hliteral, List.cons_append]

section

variable {fields : Fields} {read : List (String × FieldValue)}

/-- A member of a record, read from the quote on that opens its name. -/
def readMember (fields : Fields) :
    List (String × FieldValue) → Reader (List (String × FieldValue)) :=
  fromName (recordMember fields (nestingLimit - 1))

/-- A member with the name of a field that was not read yet is put before the others. -/
theorem takes_memberText {entry : String × FieldValue}
    (hfield : lookup? entry.1 fields = some entry.2.type) (hfits : entry.2.Fits)
    (hnew : entry.1 ∉ read.map Prod.fst) :
    Takes (readMember fields) (memberText entry) read (entry :: read) := by
  intro rest hrest
  obtain ⟨given, hopen, hname⟩ := exists_name entry.1 (0x3a :: (entry.2.toJson.encode ++ rest))
  have hcolon : colon (0x3a :: (entry.2.toJson.encode ++ rest)) =
      .ok (entry.2.toJson.encode ++ rest) := rfl
  refine ⟨rest, ?_, hrest.skipSpace⟩
  rw [memberText, encodeMember, List.append_assoc, List.cons_append, readMember, fromName, hopen]
  simp only [bind, Except.bind, recordMember, hname, hfield, lookup?_eq_none_iff.2 hnew, hcolon,
    fieldValue_encode hfits hrest]
  rfl

/-- A foreign member is passed over. -/
theorem takes_foreign {member : Bytes} (h : IsForeign fields member) :
    Takes (readMember fields) member read read := by
  intro rest hrest
  obtain ⟨literal, name, text, v, rfl, hname, hfield, hvalue⟩ := h
  obtain ⟨left, hskip, hleft⟩ := skip_of_parseTree hvalue hrest
  have hopen : openName (0x22 :: (literal ++ 0x3a :: (text ++ rest))) =
      .ok (literal ++ 0x3a :: (text ++ rest)) := rfl
  have hread := string_append hname (0x3a :: (text ++ rest))
  have hcolon : colon (0x3a :: (text ++ rest)) = .ok (text ++ rest) := rfl
  refine ⟨left, ?_, hleft⟩
  rw [List.cons_append, List.append_assoc, List.cons_append, readMember, fromName, hopen]
  simp only [bind, Except.bind, recordMember, hread, List.nil_append, lookup?_eq_none_iff.2 hfield,
    hcolon, hskip]
  rfl

/-- A member of a record, told by the value of a field or by its text. -/
abbrev Piece := (String × FieldValue) ⊕ Bytes

/-- The text of a member. -/
def Piece.text : Piece → Bytes := Sum.elim memberText id

/-- The values of fields among members. -/
def known (pieces : List Piece) : List (String × FieldValue) := pieces.filterMap Sum.getLeft?

/-- What a record needs of its members: those it knows are of the type of their field, and no two of
them have one name. -/
structure Sound (fields : Fields) (pieces : List Piece) (read : List (String × FieldValue)) :
    Prop where
  field : ∀ entry, .inl entry ∈ pieces → lookup? entry.1 fields = some entry.2.type
  fits : ∀ entry, .inl entry ∈ pieces → entry.2.Fits
  foreign : ∀ member, .inr member ∈ pieces → IsForeign fields member
  nodup : ((known pieces).map Prod.fst ++ read.map Prod.fst).Nodup

/-- What holds of all members holds of those behind the first. -/
theorem Sound.of_cons {piece : Piece} {pieces : List Piece}
    {after : List (String × FieldValue)} (h : Sound fields (piece :: pieces) read)
    (hnodup : ((known pieces).map Prod.fst ++ after.map Prod.fst).Nodup) :
    Sound fields pieces after where
  field entry hentry := h.field entry (List.mem_cons_of_mem _ hentry)
  fits entry hentry := h.fits entry (List.mem_cons_of_mem _ hentry)
  foreign member hmember := h.foreign member (List.mem_cons_of_mem _ hmember)
  nodup := hnodup

/-- The members of a record are all read, those it knows in reverse. -/
theorem takesAll_pieces {pieces : List Piece} (h : Sound fields pieces read) :
    TakesAll (readMember fields) (pieces.map Piece.text) read ((known pieces).reverse ++ read) := by
  induction pieces generalizing read with
  | nil => exact .nil read
  | cons piece pieces ih =>
    cases piece with
    | inl entry =>
      have hnodup : (entry.1 :: ((known pieces).map Prod.fst ++ read.map Prod.fst)).Nodup := h.nodup
      have hnew : entry.1 ∉ read.map Prod.fst := fun hmem =>
        (List.nodup_cons.1 hnodup).1 (List.mem_append_right _ hmem)
      have htakes := ih (h.of_cons (List.perm_middle.nodup_iff.2 hnodup) :
        Sound fields pieces (entry :: read))
      have hknown : (known (.inl entry :: pieces)).reverse ++ read =
          (known pieces).reverse ++ entry :: read := by
        simp [known]
      rw [hknown]
      exact .cons (takes_memberText (h.field entry List.mem_cons_self)
        (h.fits entry List.mem_cons_self) hnew) htakes
    | inr member =>
      exact .cons (takes_foreign (h.foreign member List.mem_cons_self)) (ih (h.of_cons h.nodup))

theorem opens_pieceText {pieces : List Piece} (h : Sound fields pieces read) :
    ∀ text ∈ pieces.map Piece.text, Opens 0x7d text := by
  rw [List.forall_mem_map]
  intro piece hpiece
  cases piece with
  | inl entry => exact opens_encodeMember _
  | inr member =>
    obtain ⟨literal, name, text, v, rfl, -⟩ := h.foreign member hpiece
    exact ⟨0x22, _, rfl, by decide⟩

end

/-! ### Records -/

section

variable {fields : Fields} {values : List FieldValue}

/-- The values of fields with their names. -/
def entries (fields : Fields) (values : List FieldValue) : List (String × FieldValue) :=
  (fields.map Prod.fst).zip values

/-- Values of the right types tell the fields. -/
theorem map_entries (htypes : values.map FieldValue.type = fields.map Prod.snd) :
    (entries fields values).map (fun entry => (entry.1, entry.2.type)) = fields := by
  induction fields generalizing values with
  | nil => rfl
  | cons field fields ih =>
    cases values with
    | nil => cases htypes
    | cons v values =>
      obtain ⟨htype, hrest⟩ := List.cons.inj htypes
      have hfields := ih hrest
      rw [entries] at hfields ⊢
      rw [List.map_cons, List.zip_cons_cons, List.map_cons, hfields, htype]

/-- Each field has its value if it is found under the name of the field. -/
theorem collect_entries {read : List (String × FieldValue)}
    (htypes : values.map FieldValue.type = fields.map Prod.snd)
    (hread : ∀ entry ∈ entries fields values, lookup? entry.1 read = some entry.2) :
    collect read fields = .ok values := by
  induction fields generalizing values with
  | nil =>
    cases values with
    | nil => rfl
    | cons v values => cases htypes
  | cons field fields ih =>
    cases values with
    | nil => cases htypes
    | cons v values =>
      obtain ⟨hfirst, hothers⟩ := List.forall_mem_cons.1 hread
      rw [collect, hfirst, ih (List.cons.inj htypes).2 hothers]
      rfl

/-- Texts that are those of pieces in another order are the texts of the pieces in another
order. -/
theorem exists_pieces {members : List Bytes} (pieces : List Piece)
    (h : members.Perm (pieces.map Piece.text)) :
    ∃ permuted : List Piece, members = permuted.map Piece.text ∧ permuted.Perm pieces :=
  (congrFun (congrFun (List.eq_map_comp_perm Piece.text) members) pieces).mpr h

theorem map_fst_entries (htypes : values.map FieldValue.type = fields.map Prod.snd) :
    (entries fields values).map Prod.fst = fields.map Prod.fst := by
  conv_rhs => rw [← map_entries htypes, List.map_map]
  rfl

section Pieces

variable {foreign : List Bytes} {pieces : List Piece}

theorem known_perm
    (hpieces : pieces.Perm ((entries fields values).map .inl ++ foreign.map .inr)) :
    (known pieces).Perm (entries fields values) := by
  have hfilter := hpieces.filterMap Sum.getLeft?
  simpa [known, List.filterMap_map, Function.comp_def] using hfilter

/-- The values of fields, with foreign members among them, are all that a record needs. -/
theorem sound_of_perm (hnames : (fields.map Prod.fst).Nodup)
    (htypes : values.map FieldValue.type = fields.map Prod.snd) (hfits : ∀ v ∈ values, v.Fits)
    (hforeign : ∀ member ∈ foreign, IsForeign fields member)
    (hpieces : pieces.Perm ((entries fields values).map .inl ++ foreign.map .inr)) :
    Sound fields pieces [] := by
  have hentry : ∀ entry, .inl entry ∈ pieces → entry ∈ entries fields values := by
    intro entry hmem
    simpa using hpieces.subset hmem
  constructor
  · intro entry hmem
    apply lookup?_of_mem hnames
    rw [← map_entries htypes]
    exact List.mem_map_of_mem (hentry entry hmem)
  · intro entry hmem
    exact hfits entry.2 (List.of_mem_zip (hentry entry hmem)).2
  · intro member hmem
    exact hforeign member (by simpa using hpieces.subset hmem)
  · rw [List.map_nil, List.append_nil, ((known_perm hpieces).map Prod.fst).nodup_iff,
      map_fst_entries htypes]
    exact hnames

end Pieces

/-- A record is read from its members in any order, with any foreign members among them. -/
theorem parseRecord_objectText {foreign members : List Bytes}
    (hnames : (fields.map Prod.fst).Nodup)
    (htypes : values.map FieldValue.type = fields.map Prod.snd) (hfits : ∀ v ∈ values, v.Fits)
    (hforeign : ∀ member ∈ foreign, IsForeign fields member)
    (hmembers : members.Perm ((entries fields values).map memberText ++ foreign)) :
    parseRecord fields (objectText members) = .ok values := by
  obtain ⟨pieces, rfl, hpieces⟩ := exists_pieces
    ((entries fields values).map .inl ++ foreign.map .inr) (by
      simpa [Piece.text, Function.comp_def] using hmembers)
  have hknown := known_perm hpieces
  have hsound := sound_of_perm hnames htypes hfits hforeign hpieces
  have htakes := takesAll_pieces hsound
  rw [List.append_nil] at htakes
  have hread : membersWith (recordMember fields (nestingLimit - 1)) []
      (parts id 0x7d (pieces.map Piece.text) ++ []) = .ok ((known pieces).reverse, []) := by
    rw [membersWith_eq]
    exact enclosed_parts (.inr rfl) (ignoresSpace_fromName _) (opens_pieceText hsound) htakes []
  have hcollect : collect (known pieces).reverse fields = .ok values := by
    refine collect_entries htypes fun entry hentry => lookup?_of_mem ?_ ?_
    · rw [List.map_reverse, List.nodup_reverse, (hknown.map Prod.fst).nodup_iff,
        map_fst_entries htypes]
      exact hnames
    · exact List.mem_reverse.2 (hknown.symm.subset hentry)
  rw [parseRecord, objectText, ← parts_eq_intercalate, record, skipSpace_cons rfl]
  rw [List.append_nil] at hread
  simp only [if_true, bind, Except.bind, hread, hcollect]
  rfl

end

end FieldVault.Json
