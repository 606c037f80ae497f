import FieldVault.Proofs.OpenApi.Parts
import FieldVault.Proofs.OpenApi.Positions

/-!
# The positions in the data of a schema

A schema is read from data, of which most is of no account. What counts are the properties of
objects that are given inline and the items of arrays that are (`LeadsIn`): the schema leads where
its data lead (`leads_iff`), and what it marks are the positions at which its data are marked
(`exists_marked_iff`).
-/

set_option autoImplicit false

namespace FieldVault.OpenApi

open Document (Segment)

variable {name : String} {value : Datum} {entries : List (Datum × Datum)}
  {parts : List (String × Part)} {schema inner : Schema} {segments : List Segment}

/-! ### Schemas as data -/

/-- Entries give a schema of a type inline: they name the type, and say nothing under the keywords
of others. -/
structure IsInline (typeName : String) (others : List String) (entries : List (Datum × Datum)) :
    Prop where
  inline : Form.isReference entries = false
  type : (.text "type", .text typeName) ∈ entries
  others : ∀ name ∈ others, ∀ value, (.text name, value) ∈ entries → value = .null

/-- Entries give an object inline. -/
abbrev IsObject : List (Datum × Datum) → Prop :=
  IsInline "object" (foreignKeywords ++ arrayKeywords)

/-- Entries give an array inline. -/
abbrev IsArray : List (Datum × Datum) → Prop :=
  IsInline "array" (foreignKeywords ++ objectKeywords)

/-- Data of a schema that is given inline and marked with the truth value true. -/
def IsMarked (value : Datum) : Prop :=
  ∃ entries, value = .mapping entries ∧ Form.isReference entries = false ∧
    Json.GivenLast entries (.text Schema.markingName) (.bool true)

/-- A list of segments leads from the data of a schema to those of one inside it, by way of the
properties of objects and the items of arrays that are given inline. -/
inductive LeadsIn : List Segment → Datum → Datum → Prop where
  | here (value : Datum) : LeadsIn [] value value
  | property {name : String} {rest : List Segment} {entries properties : List (Datum × Datum)}
      {child inner : Datum} (object : IsObject entries)
      (given : (.text "properties", .mapping properties) ∈ entries)
      (member : Json.GivenLast properties (.text name) child) (below : LeadsIn rest child inner) :
      LeadsIn (.member name :: rest) (.mapping entries) inner
  | items {rest : List Segment} {entries items : List (Datum × Datum)} {inner : Datum}
      (array : IsArray entries) (given : (.text "items", .mapping items) ∈ entries)
      (below : LeadsIn rest (.mapping items) inner) :
      LeadsIn (.items :: rest) (.mapping entries) inner

theorem isKeyword_of_not_object : ∀ name ∈ foreignKeywords ++ arrayKeywords,
    (Json.lookup? name keywords).isSome = true := by
  decide

theorem isKeyword_of_not_array : ∀ name ∈ foreignKeywords ++ objectKeywords,
    (Json.lookup? name keywords).isSome = true := by
  decide

/-- What a schema that is given inline was read from. -/
theorem exists_parts (h : Schema.ofDatum? (.mapping entries) = some schema)
    (hinline : Form.isReference entries = false) :
    hasDistinctKeywords entries = true ∧ ∃ parts, Says entries parts ∧ schema = .ofParts parts := by
  rw [Schema.ofDatum?, hinline, if_neg Bool.false_ne_true] at h
  split at h
  · cases h
  · rename_i hdistinct
    obtain ⟨parts, hread, rfl⟩ := Option.map_eq_some_iff.1 h
    obtain ⟨more, heq, hparts⟩ := says_of_partsOf? hread
    rw [List.reverse_nil, List.nil_append] at heq
    rw [heq]
    exact ⟨by simpa using hdistinct, more, hparts, rfl⟩

theorem eq_reference (h : Schema.ofDatum? (.mapping entries) = some schema)
    (hreference : Form.isReference entries = true) : schema = .reference := by
  rw [Schema.ofDatum?, hreference, if_pos rfl] at h
  exact (Option.some.inj h).symm

theorem ofParts_eq_object_iff {marking : Option Datum} {properties : List (String × Schema)} :
    Schema.ofParts parts = .object marking properties ↔
      typeName? parts = some "object" ∧
        anyPresent (foreignKeywords ++ arrayKeywords) parts = false ∧
        markingOf? parts = marking ∧ propertiesOf parts = properties := by
  rw [Schema.ofParts]
  split
  · rename_i hobject
    rw [Bool.not_eq_true'] at hobject
    simp [hobject]
  · rename_i hobject
    constructor
    · intro h
      split at h
      · split at h <;> cases h
      · cases h
    · rintro ⟨htype, hothers, -⟩
      exact absurd ⟨htype, by rw [hothers]; rfl⟩ hobject

theorem ofParts_eq_array_iff {marking : Option Datum} {items : Schema} :
    Schema.ofParts parts = .array marking items ↔
      typeName? parts = some "array" ∧
        anyPresent (foreignKeywords ++ objectKeywords) parts = false ∧
        markingOf? parts = marking ∧ itemsOf? parts = some items := by
  rw [Schema.ofParts]
  split
  · rename_i hobject
    simp [hobject.1]
  · split
    · rename_i harray
      rw [Bool.not_eq_true'] at harray
      split
      · rename_i hitems
        simp [harray, hitems]
      · rename_i hitems
        simp [hitems]
    · rename_i harray
      constructor
      · nofun
      · rintro ⟨htype, hothers, -⟩
        exact absurd ⟨htype, by rw [hothers]; rfl⟩ harray

theorem marking?_ofParts : (Schema.ofParts parts).marking? = markingOf? parts := by
  rw [Schema.ofParts]
  split
  · rfl
  · split
    · split <;> rfl
    · rfl

/-- Whether entries give a schema of a type inline can be told by their parts. -/
theorem Says.isInline_iff {typeName : String} {others : List String} (h : Says entries parts)
    (hinline : Form.isReference entries = false) (hdistinct : hasDistinctKeywords entries = true)
    (hkeywords : ∀ name ∈ others, (Json.lookup? name keywords).isSome = true) :
    IsInline typeName others entries ↔
      typeName? parts = some typeName ∧ anyPresent others parts = false := by
  rw [h.typeName?_iff hdistinct, h.anyPresent_eq_false_iff hkeywords]
  constructor
  · rintro ⟨-, htype, hothers⟩
    exact ⟨htype, hothers⟩
  · rintro ⟨htype, hothers⟩
    exact ⟨hinline, htype, hothers⟩

theorem mem_lastGiven_iff {α : Type} {given : List (String × α)} {a : α} :
    (name, a) ∈ lastGiven given ↔ Json.GivenLast given name a :=
  (Json.mem_setAll_iff .nil).trans (by simp)

/-- What is given under the properties of a schema describes schemas. -/
theorem Says.exists_describe {inner : List (Datum × Datum)} (h : Says entries parts)
    (hentry : (.text "properties", .mapping inner) ∈ entries) :
    ∃ given, schemasOf? [] inner = some given ∧ Describe inner given := by
  obtain ⟨part, hpart, -⟩ := h.exists_part hentry
  rw [partOf?_properties] at hpart
  obtain ⟨given, hgiven, -⟩ := Option.map_eq_some_iff.1 hpart
  exact ⟨given, hgiven, describe_of_schemasOf? hgiven⟩

/-- The properties of an object are those that its data give last under their names. -/
theorem exists_property_iff {child : Schema}
    (h : Schema.ofDatum? (.mapping entries) = some schema) :
    (∃ marking properties, schema = .object marking properties ∧ (name, child) ∈ properties) ↔
      IsObject entries ∧ ∃ properties below, (.text "properties", .mapping properties) ∈ entries ∧
        Json.GivenLast properties (.text name) below ∧ Schema.ofDatum? below = some child := by
  cases hinline : Form.isReference entries with
  | true =>
    rw [eq_reference h hinline]
    constructor
    · rintro ⟨marking, properties, heq, -⟩
      cases heq
    · rintro ⟨hobject, -⟩
      rw [hobject.inline] at hinline
      cases hinline
  | false =>
    obtain ⟨hdistinct, parts, hparts, rfl⟩ := exists_parts h hinline
    rw [IsObject, hparts.isInline_iff hinline hdistinct isKeyword_of_not_object]
    constructor
    · rintro ⟨marking, properties, heq, hmem⟩
      obtain ⟨htype, hothers, -, rfl⟩ := ofParts_eq_object_iff.1 heq
      obtain ⟨inner, given, hentry, hgiven, hmem⟩ := (hparts.mem_propertiesOf_iff hdistinct).1 hmem
      have hdescribe := describe_of_schemasOf? hgiven
      obtain ⟨below, hlast, hbelow⟩ :=
        (givenLast_iff_of_describe hdescribe).1 (mem_lastGiven_iff.1 hmem)
      exact ⟨⟨htype, hothers⟩, inner, below, hentry, hlast, hbelow⟩
    · rintro ⟨⟨htype, hothers⟩, inner, below, hentry, hlast, hbelow⟩
      obtain ⟨given, hgiven, hdescribe⟩ := hparts.exists_describe hentry
      refine ⟨_, _, ofParts_eq_object_iff.2 ⟨htype, hothers, rfl, rfl⟩, ?_⟩
      apply (hparts.mem_propertiesOf_iff hdistinct).2
      refine ⟨inner, given, hentry, hgiven, mem_lastGiven_iff.2 ?_⟩
      exact (givenLast_iff_of_describe hdescribe).2 ⟨below, hlast, hbelow⟩

/-- The items of an array are those that its data give. -/
theorem exists_items_iff {items : Schema} (h : Schema.ofDatum? (.mapping entries) = some schema) :
    (∃ marking, schema = .array marking items) ↔
      IsArray entries ∧ ∃ inner, (.text "items", .mapping inner) ∈ entries ∧
        Schema.ofDatum? (.mapping inner) = some items := by
  cases hinline : Form.isReference entries with
  | true =>
    rw [eq_reference h hinline]
    constructor
    · rintro ⟨marking, heq⟩
      cases heq
    · rintro ⟨harray, -⟩
      rw [harray.inline] at hinline
      cases hinline
  | false =>
    obtain ⟨hdistinct, parts, hparts, rfl⟩ := exists_parts h hinline
    rw [IsArray, hparts.isInline_iff hinline hdistinct isKeyword_of_not_array]
    constructor
    · rintro ⟨marking, heq⟩
      obtain ⟨htype, hothers, -, hitems⟩ := ofParts_eq_array_iff.1 heq
      obtain ⟨value, hentry, hvalue⟩ := (hparts.itemsOf?_iff hdistinct).1 hitems
      obtain ⟨inner, rfl⟩ := exists_mapping_of_ofDatum? hvalue
      exact ⟨⟨htype, hothers⟩, inner, hentry, hvalue⟩
    · rintro ⟨⟨htype, hothers⟩, inner, hentry, hvalue⟩
      have hitems := (hparts.itemsOf?_iff hdistinct).2 ⟨_, hentry, hvalue⟩
      exact ⟨_, ofParts_eq_array_iff.2 ⟨htype, hothers, rfl, hitems⟩⟩

/-- A schema is marked if its data are. -/
theorem marking?_iff_isMarked (h : Schema.ofDatum? value = some schema) :
    schema.marking? = some (.bool true) ↔ IsMarked value := by
  obtain ⟨entries, rfl⟩ := exists_mapping_of_ofDatum? h
  have hmarked : IsMarked (.mapping entries) ↔ Form.isReference entries = false ∧
      Json.GivenLast entries (.text Schema.markingName) (.bool true) := by
    simp [IsMarked]
  rw [hmarked]
  cases hinline : Form.isReference entries with
  | true => simp [eq_reference h hinline, Schema.marking?]
  | false =>
    obtain ⟨-, parts, hparts, rfl⟩ := exists_parts h hinline
    rw [marking?_ofParts, hparts.markingOf?_iff]
    simp

/-! ### Positions in data -/

/-- What stands at a position of data that describe a schema describes one, too. -/
theorem LeadsIn.exists_ofDatum? {position : Datum} (hleads : LeadsIn segments value position)
    (h : Schema.ofDatum? value = some schema) :
    ∃ inner, Schema.ofDatum? position = some inner := by
  induction hleads generalizing schema with
  | here value => exact ⟨schema, h⟩
  | property object given member _ ih =>
    obtain ⟨-, parts, hparts, -⟩ := exists_parts h object.inline
    obtain ⟨schemas, -, hdescribe⟩ := hparts.exists_describe given
    obtain ⟨child, hchild⟩ := exists_ofDatum?_of_describe hdescribe member.mem
    exact ih hchild
  | items array given _ ih =>
    obtain ⟨-, parts, hparts, -⟩ := exists_parts h array.inline
    obtain ⟨part, hpart, -⟩ := hparts.exists_part given
    rw [partOf?_items] at hpart
    obtain ⟨items, hitems, -⟩ := Option.map_eq_some_iff.1 hpart
    exact ih hitems

theorem leads_member_iff {name : String} :
    Schema.Leads (.member name :: segments) schema inner ↔
      ∃ child, (∃ marking properties, schema = .object marking properties ∧
        (name, child) ∈ properties) ∧ Schema.Leads segments child inner := by
  constructor
  · intro h
    cases h with
    | property member below => exact ⟨_, ⟨_, _, rfl, member⟩, below⟩
  · rintro ⟨child, ⟨marking, properties, rfl, member⟩, below⟩
    exact .property member below

theorem leads_items_iff :
    Schema.Leads (.items :: segments) schema inner ↔
      ∃ items, (∃ marking, schema = .array marking items) ∧ Schema.Leads segments items inner := by
  constructor
  · intro h
    cases h with
    | items below => exact ⟨_, ⟨_, rfl⟩, below⟩
  · rintro ⟨items, ⟨marking, rfl⟩, below⟩
    exact .items below

/-- The schemas at the positions of a schema are those that the data there describe. -/
theorem leads_iff (h : Schema.ofDatum? value = some schema) :
    Schema.Leads segments schema inner ↔
      ∃ position, LeadsIn segments value position ∧ Schema.ofDatum? position = some inner := by
  -- the induction is on the segments, for all data and schemas, since a step leads on to others
  induction segments generalizing value schema with
  | nil =>
    constructor
    · rintro ⟨⟩
      exact ⟨value, .here value, h⟩
    · rintro ⟨position, ⟨⟩, hinner⟩
      rw [h] at hinner
      cases hinner
      exact .here _
  | cons segment rest ih =>
    obtain ⟨entries, rfl⟩ := exists_mapping_of_ofDatum? h
    cases segment with
    | member name =>
      simp only [leads_member_iff, exists_property_iff h]
      constructor
      · rintro ⟨child, ⟨hobject, properties, below, hgiven, hlast, hchild⟩, hleads⟩
        obtain ⟨position, hposition, hinner⟩ := (ih hchild).1 hleads
        exact ⟨position, .property hobject hgiven hlast hposition, hinner⟩
      · rintro ⟨position, hleads, hinner⟩
        cases hleads with
        | property hobject hgiven hlast hbelow =>
          obtain ⟨child, hchild⟩ :=
            (LeadsIn.property hobject hgiven hlast (.here _)).exists_ofDatum? h
          exact ⟨child, ⟨hobject, _, _, hgiven, hlast, hchild⟩,
            (ih hchild).2 ⟨position, hbelow, hinner⟩⟩
    | items =>
      simp only [leads_items_iff, exists_items_iff h]
      constructor
      · rintro ⟨items, ⟨harray, below, hgiven, hitems⟩, hleads⟩
        obtain ⟨position, hposition, hinner⟩ := (ih hitems).1 hleads
        exact ⟨position, .items harray hgiven hposition, hinner⟩
      · rintro ⟨position, hleads, hinner⟩
        cases hleads with
        | items harray hgiven hbelow =>
          obtain ⟨items, hitems⟩ := (LeadsIn.items harray hgiven (.here _)).exists_ofDatum? h
          exact ⟨items, ⟨harray, _, hgiven, hitems⟩, (ih hitems).2 ⟨position, hbelow, hinner⟩⟩

/-- The positions that a schema marks are those at which its data are marked. -/
theorem exists_marked_iff (h : Schema.ofDatum? value = some schema) :
    (∃ last, Schema.Leads segments schema last ∧ last.marking? = some (.bool true)) ↔
      ∃ position, LeadsIn segments value position ∧ IsMarked position := by
  constructor
  · rintro ⟨last, hleads, hmarked⟩
    obtain ⟨position, hposition, hlast⟩ := (leads_iff h).1 hleads
    exact ⟨position, hposition, (marking?_iff_isMarked hlast).1 hmarked⟩
  · rintro ⟨position, hposition, hmarked⟩
    obtain ⟨last, hlast⟩ := hposition.exists_ofDatum? h
    exact ⟨last, (leads_iff h).2 ⟨position, hposition, hlast⟩,
      (marking?_iff_isMarked hlast).2 hmarked⟩

end FieldVault.OpenApi
