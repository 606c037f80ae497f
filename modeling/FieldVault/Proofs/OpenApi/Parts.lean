import FieldVault.OpenApi.Schema
import FieldVault.Proofs.Json.Entries
import Mathlib.Tactic.ByContra

/-!
# The parts of a schema

A schema is read entry by entry: each says a part (`Says`), by its name and its value
(`MemberSays`). No keyword is given twice, so the type, the properties and the items of the schema
are those that its entries give (`Says.findSome?_iff`); its marking is the one given last
(`Says.markingOf?_iff`), and a keyword is present if it is given and not null
(`Says.anyPresent_eq_false_iff`).
-/

set_option autoImplicit false

namespace FieldVault.OpenApi

variable {name : String} {value : Datum} {part : Part} {entries : List (Datum × Datum)}
  {parts : List (String × Part)} {schema : Schema}

/-! ### Entries and parts -/

/-- Entries say some parts: each with a name says its own, and no other says any. -/
inductive Says : List (Datum × Datum) → List (String × Part) → Prop where
  | nil : Says [] []
  | named {name : String} {value : Datum} {part : Part} {entries : List (Datum × Datum)}
      {parts : List (String × Part)} (member : partOf? name value = some part)
      (rest : Says entries parts) : Says ((.text name, value) :: entries) ((name, part) :: parts)
  | unnamed {n : Nat} {value : Datum} {entries : List (Datum × Datum)}
      {parts : List (String × Part)} (rest : Says entries parts) :
      Says ((.natural n, value) :: entries) parts

/-- The parts that are read are said by the entries; those read before come first. -/
theorem says_of_partsOf? {read : List (String × Part)} (h : partsOf? read entries = some parts) :
    ∃ more, parts = read.reverse ++ more ∧ Says entries more := by
  -- the induction is on the entries, for whatever was read before them
  induction entries generalizing read with
  | nil =>
    rw [partsOf?] at h
    exact ⟨[], by simpa using h.symm, .nil⟩
  | cons first rest ih =>
    obtain ⟨key, value⟩ := first
    cases key with
    | text name =>
      rw [partsOf?] at h
      cases hpart : partOf? name value with
      | none => simp [hpart] at h
      | some part =>
        simp only [hpart] at h
        obtain ⟨more, rfl, hmore⟩ := ih h
        exact ⟨(name, part) :: more, by simp, .named hpart hmore⟩
    | natural n =>
      rw [partsOf?] at h
      obtain ⟨more, rfl, hmore⟩ := ih h
      exact ⟨more, rfl, .unnamed hmore⟩
    | _ => simp [partsOf?] at h

theorem Says.mem_iff (h : Says entries parts) :
    (name, part) ∈ parts ↔
      ∃ value, (.text name, value) ∈ entries ∧ partOf? name value = some part := by
  induction h with
  | nil => simp
  | @named other given found entries parts member rest ih =>
    rw [List.mem_cons, ih]
    constructor
    · rintro (heq | ⟨value, hmem, hpart⟩)
      · obtain ⟨rfl, rfl⟩ := Prod.mk.inj heq
        exact ⟨given, List.mem_cons_self, member⟩
      · exact ⟨value, List.mem_cons_of_mem _ hmem, hpart⟩
    · rintro ⟨value, hmem, hpart⟩
      rcases List.mem_cons.1 hmem with heq | hmem
      · obtain ⟨hname, rfl⟩ := Prod.mk.inj heq
        cases hname
        rw [member] at hpart
        exact .inl (by rw [Option.some.inj hpart])
      · exact .inr ⟨value, hmem, hpart⟩
  | unnamed rest ih =>
    rw [ih]
    simp

/-- Every entry with a name says its part. -/
theorem Says.exists_part (h : Says entries parts) (hentry : (.text name, value) ∈ entries) :
    ∃ part, partOf? name value = some part ∧ (name, part) ∈ parts := by
  induction h with
  | nil => cases hentry
  | named member rest ih =>
    rcases List.mem_cons.1 hentry with heq | hentry
    · cases heq
      exact ⟨_, member, List.mem_cons_self⟩
    · obtain ⟨part, hpart, hmem⟩ := ih hentry
      exact ⟨part, hpart, List.mem_cons_of_mem _ hmem⟩
  | unnamed rest ih =>
    rcases List.mem_cons.1 hentry with heq | hentry
    · cases heq
    · exact ih hentry

/-! ### What a member says -/

/-- What a member says, going by its name and value. -/
inductive MemberSays : String → Datum → Part → Prop where
  | marking (value : Datum) : MemberSays Schema.markingName value (.marking value)
  | unknown {name : String} (value : Datum) (hname : name ≠ Schema.markingName)
      (hkeyword : Json.lookup? name keywords = none) : MemberSays name value .nothing
  | null {name : String} {keyword : Keyword}
      (hkeyword : Json.lookup? name keywords = some keyword) : MemberSays name .null .nothing
  | type (typeName : String) : MemberSays "type" (.text typeName) (.type typeName)
  | properties {inner : List (Datum × Datum)} {schemas : List (String × Schema)}
      (h : schemasOf? [] inner = some schemas) :
      MemberSays "properties" (.mapping inner) (.properties (lastGiven schemas))
  | schema {name : String} {value : Datum} {schema : Schema}
      (hkeyword : Json.lookup? name keywords = some .schema)
      (h : Schema.ofDatum? value = some schema) : MemberSays name value (.items schema)
  | present {name : String} {value : Datum} {keyword : Keyword}
      (hkeyword : Json.lookup? name keywords = some keyword) (hvalue : value ≠ .null) :
      MemberSays name value .present

/-- Only the properties are schemas with names. -/
theorem keyword_schemas (h : Json.lookup? name keywords = some .schemas) :
    name = "properties" := by
  have hmem := Json.mem_of_lookup? h
  simpa [keywords, Keyword.optional] using hmem

theorem memberSays_of_partOf? (h : partOf? name value = some part) :
    MemberSays name value part := by
  unfold partOf? at h
  split at h
  -- no keyword: only the marking says something
  · rename_i hkeyword
    rw [Part.ofExtension?] at h
    split at h
    · cases h
    · rw [← Option.some.inj h]
      split
      · rename_i hname
        rw [hname]
        exact .marking value
      · rename_i hname
        exact .unknown value hname hkeyword
  -- a keyword that holds no schema: the name of the type is the only one that is kept
  · rename_i form hkeyword
    split at h
    · rw [← Option.some.inj h]
      unfold Part.ofValue
      split
      · exact .null hkeyword
      · split
        · rename_i hname
          rw [hname]
          exact .type _
        · exact .present hkeyword (by simp)
      · rename_i hnull _
        exact .present hkeyword hnull
    · cases h
  -- a keyword that holds schemas: which, depends on what its value is
  · rename_i keyword hsimple hkeyword
    split at h
    · rw [← Option.some.inj h]
      exact .null hkeyword
    · split at h
      · obtain ⟨schemas, hschemas, rfl⟩ := Option.map_eq_some_iff.1 h
        rw [keyword_schemas hkeyword]
        exact .properties hschemas
      · obtain ⟨schema, hschema, rfl⟩ := Option.map_eq_some_iff.1 h
        exact .schema hkeyword hschema
      · obtain ⟨schema, -, rfl⟩ := Option.map_eq_some_iff.1 h
        exact .present hkeyword (by simp)
      · cases h
    · split at h
      · split at h
        · rw [← Option.some.inj h]
          exact .present hkeyword (by simp)
        · cases h
      · cases h
    · split at h
      · rw [← Option.some.inj h]
        exact .present hkeyword (by simp)
      · cases h
    · cases h

/-- A keyword says nothing if it is null, and something otherwise. -/
theorem MemberSays.isPresent_iff (h : MemberSays name value part)
    (hkeyword : (Json.lookup? name keywords).isSome = true) :
    part.isPresent = true ↔ value ≠ .null := by
  cases h with
  | marking => exact absurd hkeyword (by decide)
  | unknown _ _ hnone => simp [hnone] at hkeyword
  | null => simp [Part.isPresent]
  | type => simp [Part.isPresent]
  | properties => simp [Part.isPresent]
  | schema _ hschema =>
    have hne : value ≠ .null := by
      rintro rfl
      simp [Schema.ofDatum?] at hschema
    simp [Part.isPresent, hne]
  | present _ hvalue => simp [Part.isPresent, hvalue]

/-- A member is a marking by its name. -/
theorem MemberSays.marking_iff {marking : Datum} (h : MemberSays name value part) :
    part = .marking marking ↔ name = Schema.markingName ∧ value = marking := by
  have hunknown : Json.lookup? Schema.markingName keywords = none := rfl
  have hne {keyword : Keyword} (hkeyword : Json.lookup? name keywords = some keyword) :
      name ≠ Schema.markingName := by
    rintro rfl
    rw [hunknown] at hkeyword
    cases hkeyword
  cases h with
  | marking => simp
  | unknown _ hname => simp [hname]
  | null hkeyword => simp [hne hkeyword]
  | type => simp [Schema.markingName]
  | properties => simp [Schema.markingName]
  | schema hkeyword => simp [hne hkeyword]
  | present hkeyword => simp [hne hkeyword]

theorem MemberSays.ofDatum?_eq {schema : Schema} (h : MemberSays name value (.items schema)) :
    Schema.ofDatum? value = some schema := by
  cases h with
  | schema _ hschema => exact hschema

theorem eq_text_of_text? {content : String} (h : value.text? = some content) :
    value = .text content := by
  cases value with
  | text => rw [Option.some.inj h]
  | _ => cases h

theorem partOf?_type (typeName : String) :
    partOf? "type" (.text typeName) = some (.type typeName) := by
  rw [partOf?]
  rfl

theorem partOf?_properties (inner : List (Datum × Datum)) :
    partOf? "properties" (.mapping inner) =
      (schemasOf? [] inner).map fun schemas => .properties (lastGiven schemas) := by
  rw [partOf?]
  rfl

theorem partOf?_items (inner : List (Datum × Datum)) :
    partOf? "items" (.mapping inner) = (Schema.ofDatum? (.mapping inner)).map .items := by
  rw [partOf?]
  rfl

/-- Only mappings describe schemas. -/
theorem exists_mapping_of_ofDatum? (h : Schema.ofDatum? value = some schema) :
    ∃ inner, value = .mapping inner := by
  cases value with
  | mapping inner => exact ⟨inner, rfl⟩
  | _ => simp [Schema.ofDatum?] at h

theorem Says.exists_member (h : Says entries parts) (hmem : (name, part) ∈ parts) :
    ∃ value, (.text name, value) ∈ entries ∧ MemberSays name value part := by
  obtain ⟨value, hentry, hpart⟩ := h.mem_iff.1 hmem
  exact ⟨value, hentry, memberSays_of_partOf? hpart⟩

/-! ### Parts that stand once -/

/-- A keyword that is given at most once has one value. -/
theorem eq_of_hasDistinctKeywords {other : Datum} (h : hasDistinctKeywords entries = true)
    (hkeyword : (Json.lookup? name keywords).isSome = true) (hvalue : (.text name, value) ∈ entries)
    (hother : (.text name, other) ∈ entries) : value = other := by
  obtain ⟨keyword, hlookup⟩ := Option.isSome_iff_exists.1 hkeyword
  have hlength : (Form.entriesNamed name entries).length ≤ 1 :=
    of_decide_eq_true (List.all_eq_true.1 h _ (Json.mem_of_lookup? hlookup))
  have hmem {found : Datum} (hfound : (.text name, found) ∈ entries) :
      (.text name, found) ∈ Form.entriesNamed name entries :=
    List.mem_filter.2 ⟨hfound, by simp [Datum.text?]⟩
  have hvalue := hmem hvalue
  have hother := hmem hother
  -- there is just one entry of the name
  rcases hnamed : Form.entriesNamed name entries with - | ⟨only, - | ⟨second, more⟩⟩
  · rw [hnamed] at hvalue
    cases hvalue
  · rw [hnamed, List.mem_singleton] at hvalue hother
    exact (Prod.mk.inj (hvalue.trans hother.symm)).2
  · rw [hnamed] at hlength
    simp at hlength

/-- What is found of a keyword is what its value says, if every such part was said by it. -/
theorem Says.findSome?_iff {β : Type} (keyword : String) (said : Datum → Option β)
    {found : String × Part → Option β} {b : β} (h : Says entries parts)
    (hdistinct : hasDistinctKeywords entries = true)
    (hkeyword : (Json.lookup? keyword keywords).isSome = true)
    (hfound : ∀ {name value part b}, MemberSays name value part → found (name, part) = some b →
      name = keyword ∧ said value = some b)
    (hsaid : ∀ {value b}, said value = some b →
      ∃ part, partOf? keyword value = some part ∧ found (keyword, part) = some b) :
    parts.findSome? found = some b ↔
      ∃ value, (.text keyword, value) ∈ entries ∧ said value = some b := by
  have hmem {entry : String × Part} {b : β} (hentry : entry ∈ parts) (hb : found entry = some b) :
      ∃ value, (.text keyword, value) ∈ entries ∧ said value = some b := by
    obtain ⟨name, part⟩ := entry
    obtain ⟨value, hvalue, hmember⟩ := h.exists_member hentry
    obtain ⟨rfl, hb⟩ := hfound hmember hb
    exact ⟨value, hvalue, hb⟩
  constructor
  · intro hfirst
    obtain ⟨entry, hentry, hb⟩ := List.exists_of_findSome?_eq_some hfirst
    exact hmem hentry hb
  · rintro ⟨value, hvalue, hb⟩
    obtain ⟨part, hpart, hpartFound⟩ := hsaid hb
    cases hfirst : parts.findSome? found with
    | none =>
      have hnone := List.findSome?_eq_none_iff.1 hfirst _ (h.mem_iff.2 ⟨value, hvalue, hpart⟩)
      rw [hpartFound] at hnone
      cases hnone
    | some first =>
      -- the first part that is found was said by the same value, as no keyword is given twice
      obtain ⟨entry, hentry, hfirst⟩ := List.exists_of_findSome?_eq_some hfirst
      obtain ⟨other, hother, hsame⟩ := hmem hentry hfirst
      rw [eq_of_hasDistinctKeywords hdistinct hkeyword hother hvalue, hb] at hsame
      exact hsame.symm

/-- The name of a type that a part gives. -/
def typeNameIn? : String × Part → Option String
  | (_, .type typeName) => some typeName
  | _ => none

/-- The properties that a part gives. -/
def propertiesIn? : String × Part → Option (List (String × Schema))
  | (_, .properties schemas) => some schemas
  | _ => none

/-- The schema of the items that a part gives. -/
def itemsIn? : String × Part → Option Schema
  | ("items", .items schema) => some schema
  | _ => none

/-- The properties that a value describes. -/
def describedProperties? : Datum → Option (List (String × Schema))
  | .mapping inner => (schemasOf? [] inner).map lastGiven
  | _ => none

theorem describedProperties?_eq_some_iff {schemas : List (String × Schema)} :
    describedProperties? value = some schemas ↔ ∃ inner given, value = .mapping inner ∧
      schemasOf? [] inner = some given ∧ lastGiven given = schemas := by
  constructor
  · intro h
    unfold describedProperties? at h
    split at h
    · rename_i inner
      obtain ⟨given, hgiven, hlast⟩ := Option.map_eq_some_iff.1 h
      exact ⟨inner, given, rfl, hgiven, hlast⟩
    · cases h
  · rintro ⟨inner, given, rfl, hgiven, rfl⟩
    rw [describedProperties?, hgiven]
    rfl

theorem typeName?_eq_findSome? (parts : List (String × Part)) :
    typeName? parts = parts.findSome? typeNameIn? := by
  induction parts with
  | nil => rfl
  | cons first rest ih =>
    obtain ⟨name, part⟩ := first
    cases part <;> simp [typeName?, List.findSome?_cons, typeNameIn?, ih]

theorem propertiesOf_eq_findSome? (parts : List (String × Part)) :
    propertiesOf parts = (parts.findSome? propertiesIn?).getD [] := by
  induction parts with
  | nil => rfl
  | cons first rest ih =>
    obtain ⟨name, part⟩ := first
    cases part <;> simp [propertiesOf, List.findSome?_cons, propertiesIn?, ih]

theorem itemsOf?_eq_findSome? (parts : List (String × Part)) :
    itemsOf? parts = parts.findSome? itemsIn? := by
  induction parts with
  | nil => rfl
  | cons first rest ih =>
    rw [List.findSome?_cons, itemsOf?.eq_def, itemsIn?.eq_def]
    split <;> simp_all

/-- The name of the type is the one that the entries give. -/
theorem Says.typeName?_iff {typeName : String} (h : Says entries parts)
    (hdistinct : hasDistinctKeywords entries = true) :
    typeName? parts = some typeName ↔ (.text "type", .text typeName) ∈ entries := by
  rw [typeName?_eq_findSome?, h.findSome?_iff "type" Datum.text? hdistinct rfl]
  · constructor
    · rintro ⟨value, hmem, hvalue⟩
      rwa [eq_text_of_text? hvalue] at hmem
    · intro hmem
      exact ⟨_, hmem, rfl⟩
  · intro name value part typeName hmember hfound
    cases hmember with
    | type => exact ⟨rfl, hfound⟩
    | _ => cases hfound
  · intro value typeName hvalue
    rw [eq_text_of_text? hvalue]
    exact ⟨_, partOf?_type typeName, rfl⟩

/-- The properties are those that the entries give. -/
theorem Says.mem_propertiesOf_iff (h : Says entries parts)
    (hdistinct : hasDistinctKeywords entries = true) :
    (name, schema) ∈ propertiesOf parts ↔
      ∃ inner given, (.text "properties", .mapping inner) ∈ entries ∧
        schemasOf? [] inner = some given ∧ (name, schema) ∈ lastGiven given := by
  have hfirst {schemas : List (String × Schema)} :
      parts.findSome? propertiesIn? = some schemas ↔ ∃ value,
        (.text "properties", value) ∈ entries ∧ describedProperties? value = some schemas := by
    apply h.findSome?_iff "properties" describedProperties? hdistinct rfl
    · intro name value part schemas hmember hfound
      cases hmember with
      | properties hgiven =>
        cases hfound
        exact ⟨rfl, describedProperties?_eq_some_iff.2 ⟨_, _, rfl, hgiven, rfl⟩⟩
      | _ => cases hfound
    · intro value schemas hvalue
      obtain ⟨inner, given, rfl, hgiven, rfl⟩ := describedProperties?_eq_some_iff.1 hvalue
      refine ⟨.properties (lastGiven given), ?_, rfl⟩
      rw [partOf?_properties, hgiven]
      rfl
  rw [propertiesOf_eq_findSome?]
  constructor
  · intro hmem
    cases hfound : parts.findSome? propertiesIn? with
    | none =>
      rw [hfound] at hmem
      cases hmem
    | some schemas =>
      obtain ⟨value, hentry, hvalue⟩ := hfirst.1 hfound
      obtain ⟨inner, given, rfl, hgiven, rfl⟩ := describedProperties?_eq_some_iff.1 hvalue
      rw [hfound] at hmem
      exact ⟨inner, given, hentry, hgiven, hmem⟩
  · rintro ⟨inner, given, hentry, hgiven, hmem⟩
    have hvalue := describedProperties?_eq_some_iff.2 ⟨inner, given, rfl, hgiven, rfl⟩
    rw [hfirst.2 ⟨_, hentry, hvalue⟩]
    exact hmem

/-- The schema of the items is the one that the entries give. -/
theorem Says.itemsOf?_iff (h : Says entries parts)
    (hdistinct : hasDistinctKeywords entries = true) :
    itemsOf? parts = some schema ↔
      ∃ value, (.text "items", value) ∈ entries ∧ Schema.ofDatum? value = some schema := by
  rw [itemsOf?_eq_findSome?]
  apply h.findSome?_iff "items" Schema.ofDatum? hdistinct rfl
  · intro name value part schema hmember hfound
    unfold itemsIn? at hfound
    split at hfound
    · rename_i items heq
      obtain ⟨rfl, rfl⟩ := Prod.mk.inj heq
      cases hfound
      exact ⟨rfl, hmember.ofDatum?_eq⟩
    · cases hfound
  · intro value schema hschema
    obtain ⟨inner, rfl⟩ := exists_mapping_of_ofDatum? hschema
    refine ⟨.items schema, ?_, rfl⟩
    rw [partOf?_items, hschema]
    rfl

/-! ### Parts that are present, and the marking -/

/-- No keyword of a list is present if all those given are null. -/
theorem Says.anyPresent_eq_false_iff {names : List String} (h : Says entries parts)
    (hkeywords : ∀ name ∈ names, (Json.lookup? name keywords).isSome = true) :
    anyPresent names parts = false ↔
      ∀ name ∈ names, ∀ value, (.text name, value) ∈ entries → value = .null := by
  rw [anyPresent, List.any_eq_false]
  constructor
  · intro hnone name hname value hentry
    obtain ⟨part, hpart, hmem⟩ := h.exists_part hentry
    have habsent := hnone (name, part) hmem
    by_contra hvalue
    apply habsent
    rw [Bool.and_eq_true, List.contains_iff_mem]
    exact ⟨hname, ((memberSays_of_partOf? hpart).isPresent_iff (hkeywords name hname)).2 hvalue⟩
  · rintro hnull ⟨name, part⟩ hmem hpresent
    rw [Bool.and_eq_true, List.contains_iff_mem] at hpresent
    obtain ⟨value, hentry, hmember⟩ := h.exists_member hmem
    exact (hmember.isPresent_iff (hkeywords name hpresent.1)).1 hpresent.2
      (hnull name hpresent.1 value hentry)

/-- The marking is the one that the entries give last. -/
theorem Says.markingOf?_iff {marking : Datum} (h : Says entries parts) :
    markingOf? parts = some marking ↔
      Json.GivenLast entries (.text Schema.markingName) marking := by
  induction h generalizing marking with
  | nil => simp [markingOf?, Json.not_givenLast_nil]
  | @named name value part entries parts member rest ih =>
    have hmember := memberSays_of_partOf? member
    rw [Json.givenLast_cons_iff, ← ih]
    by_cases hname : name = Schema.markingName
    · rw [hmember.marking_iff.2 ⟨hname, rfl⟩, hname, markingOf?]
      cases hmore : markingOf? parts with
      | none =>
        have hlater : ∀ later ∈ entries, later.1 ≠ .text Schema.markingName := by
          intro later hmem hkey
          obtain ⟨other, hother⟩ := Json.exists_givenLast_iff.2 ⟨later, hmem, hkey⟩
          rw [ih.2 hother] at hmore
          cases hmore
        simpa using fun _ => hlater
      | some other =>
        have hother := (ih.1 hmore).mem
        have hnot : ¬ ∀ later ∈ entries, later.1 ≠ .text Schema.markingName :=
          fun hlater => hlater _ hother rfl
        rw [Option.some_or, or_iff_left fun hfirst => hnot hfirst.2]
    · have hskip : markingOf? ((name, part) :: parts) = markingOf? parts := by
        cases part with
        | marking => exact absurd (hmember.marking_iff.1 rfl).1 hname
        | _ => rfl
      simp [hskip, hname]
  | unnamed rest ih =>
    rw [ih, Json.givenLast_cons_iff]
    simp

/-! ### Named schemas -/

/-- Data and schemas that they describe, entry by entry, under the same names. -/
abbrev Describe (inner : List (Datum × Datum)) (given : List (String × Schema)) : Prop :=
  List.Forall₂ (fun entry named => entry.1 = .text named.1 ∧
    Schema.ofDatum? entry.2 = some named.2) inner given

variable {inner : List (Datum × Datum)} {given : List (String × Schema)}

/-- Data of schemas describe those that are read, after others that were read before. -/
theorem exists_describe {read : List (String × Schema)} (h : schemasOf? read inner = some given) :
    ∃ more, given = read.reverse ++ more ∧ Describe inner more := by
  induction inner generalizing read with
  | nil =>
    rw [schemasOf?] at h
    exact ⟨[], by simpa using h.symm, .nil⟩
  | cons first rest ih =>
    obtain ⟨key, value⟩ := first
    rw [schemasOf?.eq_def] at h
    dsimp only at h
    split at h
    · rename_i name schema hschema
      obtain ⟨more, rfl, hmore⟩ := ih h
      exact ⟨(name, schema) :: more, by simp, .cons ⟨rfl, hschema⟩ hmore⟩
    · cases h

theorem describe_of_schemasOf? (h : schemasOf? [] inner = some given) : Describe inner given := by
  obtain ⟨more, rfl, hmore⟩ := exists_describe h
  exact hmore

theorem exists_ofDatum?_of_describe {entry : Datum × Datum} (h : Describe inner given)
    (hmem : entry ∈ inner) : ∃ schema, Schema.ofDatum? entry.2 = some schema := by
  induction h with
  | nil => cases hmem
  | cons hentry _ ih =>
    rcases List.mem_cons.1 hmem with rfl | hmem
    · exact ⟨_, hentry.2⟩
    · exact ih hmem

theorem forall_ne_iff_of_describe (h : Describe inner given) :
    (∀ later ∈ given, later.1 ≠ name) ↔ ∀ later ∈ inner, later.1 ≠ .text name := by
  induction h with
  | nil => simp
  | cons hentry _ ih => simp only [List.forall_mem_cons, ih, hentry.1, ne_eq, Datum.text.injEq]

/-- The schema given last under a name is the one that the data given last under it describe. -/
theorem givenLast_iff_of_describe (h : Describe inner given) :
    Json.GivenLast given name schema ↔
      ∃ value, Json.GivenLast inner (.text name) value ∧ Schema.ofDatum? value = some schema := by
  induction h with
  | nil => simp [Json.not_givenLast_nil]
  | @cons entry named inner given hentry hrest ih =>
    obtain ⟨key, value⟩ := entry
    obtain ⟨other, described⟩ := named
    obtain ⟨hkey, hvalue⟩ := hentry
    dsimp only at hkey hvalue
    rw [hkey]
    simp only [Json.givenLast_cons_iff, ih, forall_ne_iff_of_describe hrest, Prod.mk.injEq,
      Datum.text.injEq]
    constructor
    · rintro (⟨value, hlast, hschema⟩ | ⟨⟨rfl, rfl⟩, hlater⟩)
      · exact ⟨value, .inl hlast, hschema⟩
      · exact ⟨value, .inr ⟨⟨rfl, rfl⟩, hlater⟩, hvalue⟩
    · rintro ⟨found, hlast | ⟨⟨rfl, rfl⟩, hlater⟩, hschema⟩
      · exact .inl ⟨found, hlast, hschema⟩
      · rw [hvalue] at hschema
        exact .inr ⟨⟨rfl, Option.some.inj hschema⟩, hlater⟩

end FieldVault.OpenApi
