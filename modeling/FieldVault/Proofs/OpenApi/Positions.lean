import FieldVault.OpenApi.Schema
import FieldVault.Proofs.Document.Path

/-!
# The positions that a schema marks

A list of segments leads from a schema to the schemas of its properties and items (`Leads`), and the
schema marks it if it leads to one that is marked as encrypted (`Marks`). The paths of the encrypted
fields of an object are the texts of the positions that its schema marks, and nothing else
(`mem_encryptedPaths`).
-/

set_option autoImplicit false

namespace FieldVault.OpenApi.Schema

open Document

/-- A list of segments leads from a schema to the one of a property or of items inside it. -/
inductive Leads : List Segment → Schema → Schema → Prop where
  | here (schema : Schema) : Leads [] schema schema
  | property {name : String} {rest : List Segment} {marking : Option Datum}
      {properties : List (String × Schema)} {child inner : Schema}
      (member : (name, child) ∈ properties) (below : Leads rest child inner) :
      Leads (.member name :: rest) (.object marking properties) inner
  | items {rest : List Segment} {marking : Option Datum} {items inner : Schema}
      (below : Leads rest items inner) : Leads (.items :: rest) (.array marking items) inner

/-- A schema marks a position if a schema that is marked as encrypted stands there. -/
def Marks (schema : Schema) (segments : List Segment) : Prop :=
  ∃ inner, Leads segments schema inner ∧ inner.isEncrypted

/-- A schema whose properties, also those further inside, all have proper names. -/
def HasProperNames (schema : Schema) : Prop :=
  ∀ segments inner, Leads segments schema inner →
    ∀ name, .member name ∈ segments → ProperName name

variable {marking : Option Datum} {properties : List (String × Schema)} {schema : Schema}
  {segments : List Segment}

theorem marks_nil : schema.Marks [] ↔ schema.isEncrypted := by
  constructor
  · rintro ⟨inner, hleads, hmarked⟩
    cases hleads
    exact hmarked
  · exact fun h => ⟨schema, .here schema, h⟩

theorem marks_object_cons {segment : Segment} :
    (Schema.object marking properties).Marks (segment :: segments) ↔
      ∃ name child, segment = .member name ∧ (name, child) ∈ properties ∧
        child.Marks segments := by
  constructor
  · rintro ⟨inner, hleads, hmarked⟩
    cases hleads with
    | property member below => exact ⟨_, _, rfl, member, inner, below, hmarked⟩
  · rintro ⟨name, child, rfl, member, inner, below, hmarked⟩
    exact ⟨inner, .property member below, hmarked⟩

theorem marks_array_cons {segment : Segment} {items : Schema} :
    (Schema.array marking items).Marks (segment :: segments) ↔
      segment = .items ∧ items.Marks segments := by
  constructor
  · rintro ⟨inner, hleads, hmarked⟩
    cases hleads with
    | items below => exact ⟨rfl, inner, below, hmarked⟩
  · rintro ⟨rfl, inner, below, hmarked⟩
    exact ⟨inner, .items below, hmarked⟩

theorem hasProperNames_object
    (h : ∀ entry ∈ properties, ProperName entry.1 ∧ entry.2.HasProperNames) :
    (Schema.object marking properties).HasProperNames := by
  intro segments inner hleads name hname
  cases hleads with
  | here => cases hname
  | property member below =>
    obtain ⟨hproper, hchild⟩ := h _ member
    rcases List.mem_cons.1 hname with heq | hrest
    · cases heq
      exact hproper
    · exact hchild _ _ below name hrest

theorem hasProperNames_array {items : Schema} (h : items.HasProperNames) :
    (Schema.array marking items).HasProperNames := by
  intro segments inner hleads name hname
  cases hleads with
  | here => cases hname
  | items below =>
    rcases List.mem_cons.1 hname with heq | hrest
    · cases heq
    · exact h _ _ below name hrest

theorem hasProperNames_other : (Schema.other marking).HasProperNames := by
  intro segments inner hleads name hname
  cases hleads
  cases hname

/-! ### The paths that are found -/

/-- The path of what stands one segment further than a path. -/
def extendPath (base : String) : Segment → String
  | .member name => propertyPath base name
  | .items => itemsPath base

theorem extendPath_ne_empty {base : String} (h : base ≠ "") (segment : Segment) :
    extendPath base segment ≠ "" := by
  cases segment with
  | member name => simp [extendPath, propertyPath, h]
  | items => simp [extendPath, itemsPath]

/-- A path that is not empty is extended by what the segments write. -/
theorem foldl_extendPath {base : String} (h : base ≠ "") (segments : List Segment) :
    segments.foldl extendPath base = base ++ String.ofList (segments.flatMap Segment.chars) := by
  induction segments generalizing base with
  | nil => simp
  | cons segment rest ih =>
    rw [List.foldl_cons, ih (extendPath_ne_empty h segment), List.flatMap_cons,
      String.ofList_append, ← String.append_assoc]
    congr 1
    cases segment with
    | member name => simp [extendPath, propertyPath, h, Segment.chars, String.append_assoc]
    | items => rfl

/-- From the root on, the path of a position is what its segments write. -/
theorem foldl_extendPath_root {name : String} (h : name ≠ "") (rest : List Segment) :
    (Segment.member name :: rest).foldl extendPath "" = renderPath (.member name :: rest) := by
  rw [List.foldl_cons, extendPath, propertyPath, if_pos rfl, foldl_extendPath h, renderPath,
    List.flatMap_cons, Segment.chars, List.cons_append, List.tail_cons, String.ofList_append,
    String.ofList_toList]

/-- An object marks inside it what the schemas of its properties mark. -/
theorem exists_marks_object (marking : Option Datum) {base path : String} :
    (∃ segments, segments ≠ [] ∧ (Schema.object marking properties).Marks segments ∧
      segments.foldl extendPath base = path) ↔
    ∃ entry ∈ properties, ∃ segments, entry.2.Marks segments ∧
      segments.foldl extendPath (propertyPath base entry.1) = path := by
  constructor
  · rintro ⟨segments, hne, hmarks, hpath⟩
    cases segments with
    | nil => exact absurd rfl hne
    | cons segment rest =>
      obtain ⟨name, child, rfl, hmember, hrest⟩ := marks_object_cons.1 hmarks
      exact ⟨(name, child), hmember, rest, hrest, hpath⟩
  · rintro ⟨⟨name, child⟩, hmember, rest, hrest, hpath⟩
    exact ⟨.member name :: rest, List.cons_ne_nil _ _,
      marks_object_cons.2 ⟨name, child, rfl, hmember, hrest⟩, hpath⟩

/-- The path of a schema, if it is marked, and the paths found in it are those of the positions
that it marks. -/
theorem mem_marked_append {base path : String}
    (ih : path ∈ markedPaths base schema ↔
      ∃ segments, segments ≠ [] ∧ schema.Marks segments ∧ segments.foldl extendPath base = path) :
    path ∈ (if schema.isEncrypted then [base] else []) ++ markedPaths base schema ↔
      ∃ segments, schema.Marks segments ∧ segments.foldl extendPath base = path := by
  rw [List.mem_append, ih]
  constructor
  · rintro (hhere | ⟨segments, -, hmarks⟩)
    · split at hhere
      · rename_i hmarked
        exact ⟨[], marks_nil.2 hmarked, (List.mem_singleton.1 hhere).symm⟩
      · cases hhere
    · exact ⟨segments, hmarks⟩
  · rintro ⟨segments, hmarks, hpath⟩
    cases segments with
    | nil =>
      left
      rw [if_pos (marks_nil.1 hmarks)]
      exact List.mem_singleton.2 hpath.symm
    | cons segment rest => exact .inr ⟨segment :: rest, List.cons_ne_nil _ _, hmarks, hpath⟩

mutual

/-- The paths found in the schema of the value at a path are those of the positions inside it that
it marks. -/
theorem mem_markedPaths (path : String) {base : String} (hbase : base ≠ "") : ∀ schema : Schema,
    path ∈ markedPaths base schema ↔
      ∃ segments, segments ≠ [] ∧ schema.Marks segments ∧ segments.foldl extendPath base = path
  | .object marking properties => by
    rw [markedPaths, exists_marks_object]
    exact mem_markedProperties path fun entry _ => extendPath_ne_empty hbase (.member entry.1)
  | .array marking items => by
    -- the items have a path of their own, which is never the empty one of the root
    have ih := mem_markedPaths path (extendPath_ne_empty hbase .items) items
    rw [markedPaths]
    simp only [ne_eq, hbase, not_false_eq_true, and_true]
    refine (mem_marked_append ih).trans ⟨?_, ?_⟩
    · rintro ⟨rest, hmarks, hpath⟩
      exact ⟨.items :: rest, List.cons_ne_nil _ _, marks_array_cons.2 ⟨rfl, hmarks⟩, hpath⟩
    · rintro ⟨segments, hne, hmarks, hpath⟩
      cases segments with
      | nil => exact absurd rfl hne
      | cons segment rest =>
        obtain ⟨rfl, hrest⟩ := marks_array_cons.1 hmarks
        exact ⟨rest, hrest, hpath⟩
  | .reference => by
    rw [markedPaths]
    refine ⟨fun h => absurd h List.not_mem_nil, ?_⟩
    rintro ⟨_, hne, ⟨_, hleads, _⟩, _⟩
    cases hleads
    exact absurd rfl hne
  | .other marking => by
    rw [markedPaths]
    refine ⟨fun h => absurd h List.not_mem_nil, ?_⟩
    rintro ⟨_, hne, ⟨_, hleads, _⟩, _⟩
    cases hleads
    exact absurd rfl hne

/-- The paths found in properties are those of the positions that their schemas mark. -/
theorem mem_markedProperties (path : String) {base : String} :
    ∀ {properties : List (String × Schema)},
    (∀ entry ∈ properties, propertyPath base entry.1 ≠ "") →
    (path ∈ markedProperties base properties ↔
      ∃ entry ∈ properties, ∃ segments, entry.2.Marks segments ∧
        segments.foldl extendPath (propertyPath base entry.1) = path)
  | [], _ => by simp [markedProperties]
  | (name, schema) :: rest, hnames => by
    have ih := mem_markedPaths path (hnames _ List.mem_cons_self) schema
    have ihRest := mem_markedProperties path fun entry hentry =>
      hnames entry (List.mem_cons_of_mem _ hentry)
    rw [markedProperties, List.mem_append, mem_marked_append ih, ihRest]
    simp only [List.mem_cons, exists_eq_or_imp]

end

/-- The text of a position in an object whose properties have names is found by way of them. -/
theorem foldl_extendPath_of_marks (hnames : ∀ entry ∈ properties, entry.1 ≠ "")
    (hne : segments ≠ []) (hmarks : (Schema.object marking properties).Marks segments) :
    segments.foldl extendPath "" = renderPath segments := by
  cases segments with
  | nil => exact absurd rfl hne
  | cons segment rest =>
    obtain ⟨name, child, rfl, hmember, -⟩ := marks_object_cons.1 hmarks
    exact foldl_extendPath_root (hnames _ hmember) rest

/-- The paths of the encrypted fields of an object whose properties have names are the texts of the
positions that its schema marks. -/
theorem mem_encryptedPaths (hnames : ∀ entry ∈ properties, entry.1 ≠ "") {path : String} :
    path ∈ (Schema.object marking properties).encryptedPaths ↔
      ∃ segments, segments ≠ [] ∧ (Schema.object marking properties).Marks segments ∧
        renderPath segments = path := by
  have hroot : ∀ entry ∈ properties, propertyPath "" entry.1 ≠ "" := by
    intro entry hentry
    rw [propertyPath, if_pos rfl]
    exact hnames entry hentry
  rw [encryptedPaths, PathSet.mem_ofList, markedPaths, mem_markedProperties path hroot,
    ← exists_marks_object marking]
  constructor
  · rintro ⟨segments, hne, hmarks, hpath⟩
    exact ⟨segments, hne, hmarks, foldl_extendPath_of_marks hnames hne hmarks ▸ hpath⟩
  · rintro ⟨segments, hne, hmarks, hpath⟩
    exact ⟨segments, hne, hmarks, (foldl_extendPath_of_marks hnames hne hmarks).trans hpath⟩

end FieldVault.OpenApi.Schema
