import FieldVault.OpenApi.Description
import FieldVault.Proofs.OpenApi.Described

/-!
# The entity types of a description

The components that a description gives itself, and no others, are its entity types
(`mem_entities`). The paths of an entity type that is an object are the texts of the positions that
its schema marks, and these are the positions that are marked in the data that describe it
(`entities_have_paths_of_marked_positions`).
-/

set_option autoImplicit false

namespace FieldVault.OpenApi

open Document

namespace Schema

variable {schema : Schema}

/-- A schema is marked as encrypted by the truth value true and by nothing else. -/
theorem isEncrypted_iff : schema.isEncrypted = true ↔ schema.marking? = some (.bool true) := by
  unfold isEncrypted
  split
  · rename_i hmarking
    simp [hmarking]
  · rename_i hmarking
    simpa using hmarking

/-! ### Schemas without markings -/

mutual

/-- Where nothing is marked no path is found, whatever kind of schema it is. -/
theorem markedPaths_eq_nil {base : String} : ∀ {schema : Schema},
    (∀ segments, segments ≠ [] → ¬ schema.Marks segments) → markedPaths base schema = []
  | .object _ properties, h => by
    rw [markedPaths]
    apply markedProperties_eq_nil
    intro entry hentry segments hmarks
    exact h (.member entry.1 :: segments) (List.cons_ne_nil _ _)
      (marks_object_cons.2 ⟨_, _, rfl, hentry, hmarks⟩)
  | .array _ items, h => by
    have hitems : ∀ segments, ¬ items.Marks segments := by
      intro segments hmarks
      exact h (.items :: segments) (List.cons_ne_nil _ _) (marks_array_cons.2 ⟨rfl, hmarks⟩)
    have hhere : ¬ (items.isEncrypted = true ∧ base ≠ "") :=
      fun hmarked => hitems [] (marks_nil.2 hmarked.1)
    rw [markedPaths, if_neg hhere, List.nil_append]
    exact markedPaths_eq_nil fun segments _ => hitems segments
  | .reference, _ => by rw [markedPaths]
  | .other _, _ => by rw [markedPaths]

theorem markedProperties_eq_nil {base : String} : ∀ {properties : List (String × Schema)},
    (∀ entry ∈ properties, ∀ segments, ¬ entry.2.Marks segments) →
    markedProperties base properties = []
  | [], _ => by rw [markedProperties]
  | (name, schema) :: rest, h => by
    have hschema : ∀ segments, ¬ schema.Marks segments := h _ List.mem_cons_self
    rw [markedProperties, if_neg (mt marks_nil.2 (hschema [])), List.nil_append,
      markedPaths_eq_nil fun segments _ => hschema segments, List.nil_append]
    exact markedProperties_eq_nil fun entry hentry => h entry (List.mem_cons_of_mem _ hentry)

end

theorem encryptedPaths_eq_empty (h : ∀ segments, segments ≠ [] → ¬ schema.Marks segments) :
    schema.encryptedPaths = .empty := by
  rw [encryptedPaths, markedPaths_eq_nil h]
  rfl

end Schema

namespace Description

variable {name : String} {paths : PathSet}

/-! ### The components given inline -/

theorem isInline_iff {schema : Schema} : isInline schema = true ↔ schema ≠ .reference := by
  cases schema <;> simp [isInline]

/-- The entries last given are all entries, if no two of them have one name. -/
theorem lastGiven_perm {α : Type} {entries : List (String × α)}
    (h : (entries.map Prod.fst).Nodup) : (lastGiven entries).Perm entries := by
  have hnames : (entries.map Prod.fst ++ ([] : List (String × α)).map Prod.fst).Nodup := by
    rwa [List.map_nil, List.append_nil]
  have hperm := Json.setAll_perm hnames
  rwa [List.append_nil] at hperm

theorem nodup_schemas (d : Description) : (d.schemas.map Prod.fst).Nodup :=
  Json.nodup_of_pairwise d.ordered

/-- The entity types are the components given inline, each with the paths of its own schema. -/
theorem mem_entities (d : Description) :
    (name, paths) ∈ d.entities ↔
      ∃ schema, (name, schema) ∈ d.schemas ∧ schema ≠ .reference ∧
        paths = schema.encryptedPaths := by
  have hnames : (((d.schemas.filter fun entry => isInline entry.2).map fun entry =>
      (entry.1, entry.2.encryptedPaths)).map Prod.fst).Nodup := by
    rw [List.map_map]
    exact d.nodup_schemas.sublist (List.filter_sublist.map Prod.fst)
  rw [entities, (lastGiven_perm hnames).mem_iff, List.mem_map]
  constructor
  · rintro ⟨⟨other, schema⟩, hmember, heq⟩
    obtain ⟨rfl, rfl⟩ := Prod.mk.inj heq
    obtain ⟨hmember, hinline⟩ := List.mem_filter.1 hmember
    exact ⟨schema, hmember, isInline_iff.1 hinline, rfl⟩
  · rintro ⟨schema, hmember, hinline, rfl⟩
    exact ⟨(name, schema), List.mem_filter.2 ⟨hmember, isInline_iff.2 hinline⟩, rfl⟩

/-- Exactly the components given inline are entity types, each once, those without markings inside
with no paths. The paths of one that is an object whose properties have names are exactly the texts
of the positions with at least one step at which a schema marked with the truth value true stands.
In data that describe the schema, these are the positions at which the data are marked so, and to
which the properties of inline objects and the items of inline arrays lead. -/
theorem entities_have_paths_of_marked_positions (d : Description) :
    (∀ name paths, (name, paths) ∈ d.entities ↔ ∃ schema, (name, schema) ∈ d.schemas ∧
      schema ≠ .reference ∧ paths = schema.encryptedPaths) ∧
    (d.entities.map Prod.fst).Nodup ∧
    (∀ name schema, (name, schema) ∈ d.schemas → schema ≠ .reference →
      (∀ segments last, segments ≠ [] → Schema.Leads segments schema last →
        last.marking? ≠ some (.bool true)) → (name, PathSet.empty) ∈ d.entities) ∧
    ∀ name marking properties, (name, Schema.object marking properties) ∈ d.schemas →
      (∀ property ∈ properties, property.1 ≠ "") →
      ∃ paths, (name, paths) ∈ d.entities ∧
        (∀ path, path ∈ paths ↔ ∃ segments last, segments ≠ [] ∧
          Schema.Leads segments (.object marking properties) last ∧
          last.marking? = some (.bool true) ∧ renderPath segments = path) ∧
        ∀ value, Schema.ofDatum? value = some (.object marking properties) →
          ∀ path, path ∈ paths ↔ ∃ segments position, segments ≠ [] ∧
            LeadsIn segments value position ∧ IsMarked position ∧ renderPath segments = path := by
  refine ⟨fun name paths => d.mem_entities, ?_, ?_, ?_⟩
  · exact Json.nodup_of_pairwise (pairwise_lastGiven _)
  · intro name schema hmember hinline hnone
    refine d.mem_entities.2 ⟨schema, hmember, hinline, (Schema.encryptedPaths_eq_empty ?_).symm⟩
    rintro segments hne ⟨last, hleads, hmarked⟩
    exact hnone segments last hne hleads (Schema.isEncrypted_iff.1 hmarked)
  intro name marking properties hmember hnames
  have hpaths (path : String) : path ∈ (Schema.object marking properties).encryptedPaths ↔
      ∃ segments last, segments ≠ [] ∧ Schema.Leads segments (.object marking properties) last ∧
        last.marking? = some (.bool true) ∧ renderPath segments = path := by
    rw [Schema.mem_encryptedPaths hnames]
    constructor
    · rintro ⟨segments, hne, ⟨last, hleads, hmarked⟩, hpath⟩
      exact ⟨segments, last, hne, hleads, Schema.isEncrypted_iff.1 hmarked, hpath⟩
    · rintro ⟨segments, last, hne, hleads, hmarked, hpath⟩
      exact ⟨segments, hne, ⟨last, hleads, Schema.isEncrypted_iff.2 hmarked⟩, hpath⟩
  refine ⟨_, d.mem_entities.2 ⟨_, hmember, nofun, rfl⟩, hpaths, ?_⟩
  intro value hvalue path
  rw [hpaths]
  constructor
  · rintro ⟨segments, last, hne, hleads, hmarked, hpath⟩
    obtain ⟨position, hposition, hmarked⟩ := (exists_marked_iff hvalue).1 ⟨last, hleads, hmarked⟩
    exact ⟨segments, position, hne, hposition, hmarked, hpath⟩
  · rintro ⟨segments, position, hne, hposition, hmarked, hpath⟩
    obtain ⟨last, hleads, hmarked⟩ := (exists_marked_iff hvalue).2 ⟨position, hposition, hmarked⟩
    exact ⟨segments, last, hne, hleads, hmarked, hpath⟩

/-- A component given elsewhere, one with markings on inner and outer schemas, in an array of arrays
and with another value than true, and one without markings. -/
theorem customer_has_paths_of_markings :
    let address : Schema := .object (some (.bool true))
      [("city", .other (some (.text "true"))), ("zip", .other (some (.bool true)))]
    let notes : Schema := .array none (.array (some (.bool true)) (.other (some (.bool true))))
    let properties := [("address", address), ("notes", notes)]
    let d : Description := ⟨[("Alias", .reference), ("Customer", .object none properties),
      ("Invoice", .object none [])], by decide⟩
    (∀ property ∈ properties, property.1 ≠ "") ∧ (∀ paths, ("Alias", paths) ∉ d.entities) ∧
      ("Invoice", PathSet.empty) ∈ d.entities ∧
      ∃ paths, ("Customer", paths) ∈ d.entities ∧ "address" ∈ paths ∧ "address.zip" ∈ paths ∧
        "notes[]" ∈ paths ∧ "notes[][]" ∈ paths ∧ "address.city" ∉ paths ∧ "notes" ∉ paths := by
  intro address notes properties d
  have hnames : ∀ property ∈ properties, property.1 ≠ "" := by decide
  obtain ⟨hentities, -, hunmarked, hobjects⟩ := entities_have_paths_of_marked_positions d
  have hcustomer : ("Customer", Schema.object none properties) ∈ d.schemas := by simp [d]
  obtain ⟨paths, hmember, hpaths, -⟩ := hobjects "Customer" none properties hcustomer hnames
  have haddress : ("address", address) ∈ properties := by simp [properties]
  have hnotes : ("notes", notes) ∈ properties := by simp [properties]
  have hmarked (segments : List Segment) (last : Schema) (hne : segments ≠ [])
      (hleads : Schema.Leads segments (.object none properties) last)
      (hmarking : last.marking? = some (.bool true)) : renderPath segments ∈ paths :=
    (hpaths _).2 ⟨segments, last, hne, hleads, hmarking, rfl⟩
  refine ⟨hnames, ?_, ?_, paths, hmember, ?_, ?_, ?_, ?_, ?_⟩
  · intro others halias
    obtain ⟨schema, hmem, hinline, -⟩ := (hentities _ _).1 halias
    simp [d] at hmem
    exact hinline hmem
  · apply hunmarked "Invoice" (.object none []) (by simp [d]) nofun
    rintro segments last hne (- | ⟨hmember, -⟩)
    · exact absurd rfl hne
    · cases hmember
  · exact hmarked [.member "address"] address nofun (.property haddress (.here _)) rfl
  · exact hmarked [.member "address", .member "zip"] (.other (some (.bool true))) nofun
      (.property haddress (.property (by simp) (.here _))) rfl
  · exact hmarked [.member "notes", .items] _ nofun
      (.property hnotes (.items (.here _))) rfl
  · exact hmarked [.member "notes", .items, .items] _ nofun
      (.property hnotes (.items (.items (.here _)))) rfl
  · obtain ⟨schema, hmem, -, rfl⟩ := (hentities _ _).1 hmember
    have hschema : schema = .object none properties := by simpa [d] using hmem
    rw [hschema, Schema.encryptedPaths, PathSet.mem_ofList, PathSet.mem_ofList]
    decide

end Description

end FieldVault.OpenApi
