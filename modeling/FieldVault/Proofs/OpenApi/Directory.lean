import FieldVault.OpenApi.Directory
import FieldVault.Proofs.Bytes
import FieldVault.Proofs.OpenApi.Entities
import Mathlib.Data.List.Flatten
import Mathlib.Data.List.Nodup
import Mathlib.Data.List.TakeWhile

/-!
# Loading does not depend on the order of the files

The schema files of a directory can be loaded if each of them describes entity types and no two of
them describe the same one; then all that they describe is loaded (`loadFiles_eq_ok_iff`). A fault
ends the loading where it is met, so which fault is reported depends on the order in which the files
are listed. Whether there is one does not, and neither does what is loaded, nor does anything depend
on what else stands in the directory (`loading_independent_of_listing`).
-/

set_option autoImplicit false

namespace FieldVault.OpenApi.Directory

open Document (PathSet)

variable {name : String} {entry : Entry} {own known entities : Entities} {files : List Entry}

/-! ### Schema files -/

/-- The name of a schema file: something, a point, and one of three extensions. -/
def IsSchemaName (name : String) : Prop :=
  ∃ stem extension, stem ≠ "" ∧ extension ∈ ["yaml", "yml", "json"] ∧
    name = stem ++ "." ++ extension

/-- An extension stands behind the last point of a name, and before that stands something. -/
theorem extension?_eq_some_iff {extension : String} :
    extension? name = some extension ↔
      ∃ stem, stem ≠ "" ∧ '.' ∉ extension.toList ∧ name = stem ++ "." ++ extension := by
  rw [extension?]
  constructor
  · intro h
    split at h
    · rename_i point last rest hdrop
      have hextension := Option.some.inj h
      have hpoint : point = '.' := by
        have hhead := List.head?_dropWhile_not (· ≠ '.') name.toList.reverse
        rw [hdrop] at hhead
        simpa using hhead
      have hname := List.takeWhile_append_dropWhile (p := (· ≠ '.')) (l := name.toList.reverse)
      rw [hdrop, hpoint] at hname
      refine ⟨String.ofList (last :: rest).reverse, by simp, ?_, ?_⟩
      · intro hmem
        rw [← hextension, String.toList_ofList, List.mem_reverse] at hmem
        simpa using List.mem_takeWhile_imp hmem
      · apply String.toList_injective
        rw [← List.reverse_inj, ← hname, ← hextension]
        simp
    · cases h
  · rintro ⟨stem, hstem, hextension, rfl⟩
    have hreverse : (stem ++ "." ++ extension).toList.reverse =
        extension.toList.reverse ++ '.' :: stem.toList.reverse := by simp
    have hno : ∀ c ∈ extension.toList.reverse, decide (c ≠ '.') = true := by
      intro c hc
      apply decide_eq_true
      rintro rfl
      exact hextension (List.mem_reverse.1 hc)
    rw [hreverse, List.takeWhile_append_of_pos hno, List.dropWhile_append_of_pos hno]
    cases hlast : stem.toList.reverse with
    | nil => simp_all
    | cons last rest => simp

theorem isSchemaFile_iff : isSchemaFile entry = true ↔ IsSchemaName entry.name := by
  have hpoint : ∀ extension ∈ ["yaml", "yml", "json"], '.' ∉ extension.toList := by decide
  unfold isSchemaFile IsSchemaName
  constructor
  · intro h
    split at h
    · rename_i extension hextension
      obtain ⟨stem, hstem, -, hname⟩ := extension?_eq_some_iff.1 hextension
      exact ⟨stem, extension, hstem, List.contains_iff_mem.1 h, hname⟩
    · cases h
  · rintro ⟨stem, extension, hstem, hmem, hname⟩
    rw [extension?_eq_some_iff.2 ⟨stem, hstem, hpoint extension hmem, hname⟩]
    exact List.contains_iff_mem.2 hmem

/-! ### What a file describes -/

/-- A file is readable as a text, and this is a description, in YAML or else in JSON, of the given
entity types. -/
def Describes (entry : Entry) (own : Entities) : Prop :=
  ∃ text description, entry.content = .file (Bytes.ofText text) ∧
    (Description.parseYaml? text = some description ∨
      Description.parseYaml? text = none ∧
        Description.parseJson (Bytes.ofText text) = .ok description) ∧
    description.entities = own

theorem textOf_eq_ok_iff {text : String} :
    textOf entry = .ok text ↔ entry.content = .file (Bytes.ofText text) := by
  unfold textOf
  constructor
  · intro h
    split at h
    · cases h
    · rename_i content hcontent
      split at h
      · rename_i found hfound
        cases h
        rw [hcontent, Bytes.ofText_of_toText? hfound]
      · cases h
  · intro h
    rw [h]
    dsimp only
    rw [Bytes.toText_ofText]

theorem parse?_eq_some_iff {text : String} {description : Description} :
    Description.parse? text = some description ↔
      Description.parseYaml? text = some description ∨
        Description.parseYaml? text = none ∧
          Description.parseJson (Bytes.ofText text) = .ok description := by
  rw [Description.parse?, Option.or_eq_some_iff]
  cases Description.parseJson (Bytes.ofText text) <;> simp [Except.toOption]

theorem entitiesOf_eq_ok_iff : entitiesOf entry = .ok own ↔ Describes entry own := by
  constructor
  · intro h
    cases htext : textOf entry with
    | error fault =>
      rw [entitiesOf, htext] at h
      cases h
    | ok text =>
      rw [entitiesOf, htext] at h
      cases hparse : Description.parse? text with
      | none => simp [bind, Except.bind, hparse] at h
      | some description =>
        refine ⟨text, description, textOf_eq_ok_iff.1 htext, parse?_eq_some_iff.1 hparse, ?_⟩
        simpa [bind, Except.bind, hparse, pure, Except.pure] using h
  · rintro ⟨text, description, hcontent, hparse, rfl⟩
    rw [entitiesOf, textOf_eq_ok_iff.2 hcontent]
    simp [bind, Except.bind, parse?_eq_some_iff.2 hparse, pure, Except.pure]

/-- A file describes at most one set of entity types. -/
theorem Describes.unique {other : Entities} (h : Describes entry own)
    (hother : Describes entry other) : own = other := by
  rw [← entitiesOf_eq_ok_iff] at h hother
  exact Except.ok.inj (h.symm.trans hother)

/-- The entity types that a file describes, if it describes any. -/
def ownOf (entry : Entry) : Entities :=
  (entitiesOf entry).toOption.getD []

theorem Describes.ownOf_eq (h : Describes entry own) : ownOf entry = own := by
  rw [ownOf, entitiesOf_eq_ok_iff.2 h]
  rfl

/-- A file does not describe an entity type twice. -/
theorem Describes.nodup (h : Describes entry own) : (own.map Prod.fst).Nodup := by
  obtain ⟨-, description, -, -, rfl⟩ := h
  exact Json.nodup_of_pairwise (pairwise_lastGiven _)

/-! ### Bringing the files together -/

/-- Entity types are added if none of them is known or comes twice. -/
theorem merge_eq_ok_iff (hknown : (known.map Prod.fst).Nodup) :
    merge known own = .ok entities ↔
      (own.map Prod.fst ++ known.map Prod.fst).Nodup ∧ Json.setAll known own = entities := by
  induction own generalizing known with
  | nil =>
    rw [merge, Except.ok.injEq]
    exact (and_iff_right hknown).symm
  | cons first rest ih =>
    obtain ⟨entity, paths⟩ := first
    rw [merge]
    by_cases hmem : entity ∈ known.map Prod.fst
    · rw [if_pos (Json.isSome_lookup?_iff.2 hmem)]
      constructor
      · nofun
      · rintro ⟨hnodup, -⟩
        exact absurd (List.mem_append_right _ hmem) (List.nodup_cons.1 hnodup).1
    · have hinsert := (Json.insertMember_perm paths hmem).map Prod.fst
      rw [if_neg (mt Json.isSome_lookup?_iff.1 hmem),
        ih (hinsert.nodup_iff.2 (List.nodup_cons.2 ⟨hmem, hknown⟩)), Json.setAll_cons]
      -- the names to come and those that are known are the same before and after
      have hnames := ((hinsert.append_left (rest.map Prod.fst)).trans List.perm_middle).nodup_iff
      rw [hnames]
      rfl

/-- Files are loaded if each of them describes entity types and nothing is described twice. -/
theorem loadFiles_eq_ok_iff (hknown : (known.map Prod.fst).Nodup) :
    loadFiles known files = .ok entities ↔
      (∀ entry ∈ files, ∃ own, Describes entry own) ∧
        ((files.flatMap ownOf).map Prod.fst ++ known.map Prod.fst).Nodup ∧
        Json.setAll known (files.flatMap ownOf) = entities := by
  -- the induction is on the files, for whatever is known, since that grows with every file
  induction files generalizing known with
  | nil =>
    rw [loadFiles, Except.ok.injEq]
    simp only [List.not_mem_nil, false_imp_iff, implies_true, true_and, List.flatMap_nil]
    exact (and_iff_right hknown).symm
  | cons entry rest ih =>
    rw [loadFiles]
    cases hown : entitiesOf entry with
    | error fault =>
      constructor
      · nofun
      · rintro ⟨hall, -⟩
        obtain ⟨own, hdescribes⟩ := hall entry List.mem_cons_self
        rw [entitiesOf_eq_ok_iff.2 hdescribes] at hown
        cases hown
    | ok own =>
      have hdescribes := entitiesOf_eq_ok_iff.1 hown
      have hall : (∀ file ∈ entry :: rest, ∃ own, Describes file own) ↔
          ∀ file ∈ rest, ∃ own, Describes file own :=
        List.forall_mem_cons.trans (and_iff_right ⟨own, hdescribes⟩)
      rw [hall, List.flatMap_cons, hdescribes.ownOf_eq, Json.setAll_append,
        Json.nodup_append_setAll_iff]
      change (merge known own >>= fun merged => loadFiles merged rest) = _ ↔ _
      cases hmerge : merge known own with
      | error fault =>
        constructor
        · nofun
        · rintro ⟨-, ⟨hfirst, -⟩, -⟩
          rw [(merge_eq_ok_iff hknown).2 ⟨hfirst, rfl⟩] at hmerge
          cases hmerge
      | ok merged =>
        obtain ⟨hfirst, rfl⟩ := (merge_eq_ok_iff hknown).1 hmerge
        have hnodup : ((Json.setAll known own).map Prod.fst).Nodup := by
          apply ((Json.setAll_perm hfirst).map Prod.fst).nodup_iff.2
          rwa [List.map_append]
        change loadFiles (Json.setAll known own) rest = _ ↔ _
        rw [ih hnodup, and_iff_right hfirst]

/-! ### Directories -/

/-- No entity type is described by both files. -/
def Apart (a b : Entry) : Prop :=
  ∀ own other, Describes a own → Describes b other →
    List.Disjoint (own.map Prod.fst) (other.map Prod.fst)

/-- Each schema file of a directory describes entity types, and no two describe the same one. -/
structure Loadable (entries : List Entry) : Prop where
  described : ∀ entry ∈ entries, IsSchemaName entry.name → ∃ own, Describes entry own
  apart : entries.Pairwise fun a b => IsSchemaName a.name → IsSchemaName b.name → Apart a b

variable {entries listed : List Entry}

theorem Loadable.of_perm (h : Loadable entries) (hperm : listed.Perm entries) :
    Loadable listed := by
  refine ⟨fun entry hentry => h.described entry (hperm.subset hentry), ?_⟩
  apply h.apart.perm hperm.symm
  intro a b hapart hb ha own other hown hother
  exact List.disjoint_comm.1 (hapart ha hb other own hother hown)

/-- The files describe nothing twice if no two of them do. -/
theorem nodup_flatMap_ownOf_iff (h : ∀ entry ∈ files, ∃ own, Describes entry own) :
    ((files.flatMap ownOf).map Prod.fst).Nodup ↔ files.Pairwise Apart := by
  have heach : ∀ entry ∈ files, ((ownOf entry).map Prod.fst).Nodup := by
    intro entry hentry
    obtain ⟨own, hown⟩ := h entry hentry
    rw [hown.ownOf_eq]
    exact hown.nodup
  rw [List.map_flatMap, List.nodup_flatMap, and_iff_right heach]
  apply List.Pairwise.iff_of_mem
  intro a b ha hb
  obtain ⟨own, hown⟩ := h a ha
  obtain ⟨other, hother⟩ := h b hb
  change List.Disjoint ((ownOf a).map Prod.fst) ((ownOf b).map Prod.fst) ↔ Apart a b
  rw [hown.ownOf_eq, hother.ownOf_eq]
  constructor
  · intro hdisjoint own' other' hown' hother'
    rwa [hown'.unique hown, hother'.unique hother]
  · intro hapart
    exact hapart own other hown hother

/-- A directory can be loaded if its schema files can be brought together, starting with nothing. -/
theorem loadable_iff :
    Loadable entries ↔ (∀ entry ∈ entries.filter isSchemaFile, ∃ own, Describes entry own) ∧
      (((entries.filter isSchemaFile).flatMap ownOf).map Prod.fst ++
        ([] : Entities).map Prod.fst).Nodup := by
  have hdescribed : (∀ entry ∈ entries.filter isSchemaFile, ∃ own, Describes entry own) ↔
      ∀ entry ∈ entries, IsSchemaName entry.name → ∃ own, Describes entry own := by
    simp only [List.mem_filter, isSchemaFile_iff, and_imp]
  rw [List.map_nil, List.append_nil]
  constructor
  · rintro ⟨hall, hapart⟩
    refine ⟨hdescribed.2 hall, (nodup_flatMap_ownOf_iff (hdescribed.2 hall)).2 ?_⟩
    simpa only [List.pairwise_filter, isSchemaFile_iff] using hapart
  · rintro ⟨hall, hnodup⟩
    have hapart := (nodup_flatMap_ownOf_iff hall).1 hnodup
    simp only [List.pairwise_filter, isSchemaFile_iff] at hapart
    exact ⟨hdescribed.1 hall, hapart⟩

/-- What is loaded, if anything is. -/
theorem load_eq_ok_iff :
    (load (some entries)).1 = .ok entities ↔ Loadable entries ∧
      Json.setAll [] ((entries.filter isSchemaFile).flatMap ownOf) = entities := by
  have hload : (load (some entries)).1 = loadFiles [] (entries.filter isSchemaFile) := by
    rw [load]
    cases loadFiles [] (entries.filter isSchemaFile) <;> rfl
  have hnone : (([] : Entities).map Prod.fst).Nodup := List.nodup_nil
  rw [hload, loadFiles_eq_ok_iff hnone, ← and_assoc, ← loadable_iff]

theorem exists_load_eq_ok_iff :
    (∃ entities, (load (some entries)).1 = .ok entities) ↔ Loadable entries := by
  constructor
  · rintro ⟨entities, h⟩
    exact (load_eq_ok_iff.1 h).1
  · intro h
    exact ⟨_, load_eq_ok_iff.2 ⟨h, rfl⟩⟩

/-- From a directory listed in another order the same is loaded. -/
theorem load_eq_ok_of_perm (hperm : listed.Perm entries)
    (h : (load (some entries)).1 = .ok entities) : (load (some listed)).1 = .ok entities := by
  obtain ⟨hloadable, rfl⟩ := load_eq_ok_iff.1 h
  have hlisted := hloadable.of_perm hperm
  refine load_eq_ok_iff.2 ⟨hlisted, ?_⟩
  apply Json.setAll_eq_of_perm ?_ (loadable_iff.1 hlisted).2 .nil
  exact (hperm.filter _).flatMap_right _

/-- What is loaded is what the schema files describe, each entity type once. -/
theorem mem_of_load_eq_ok (h : (load (some entries)).1 = .ok entities) :
    (entities.map Prod.fst).Nodup ∧ ∀ name paths, (name, paths) ∈ entities ↔
      ∃ entry ∈ entries, IsSchemaName entry.name ∧
        ∃ own, Describes entry own ∧ (name, paths) ∈ own := by
  obtain ⟨hloadable, rfl⟩ := load_eq_ok_iff.1 h
  obtain ⟨hall, hnodup⟩ := loadable_iff.1 hloadable
  refine ⟨Json.nodup_of_pairwise (Json.pairwise_setAll .nil), ?_⟩
  intro name paths
  rw [(Json.setAll_perm hnodup).mem_iff, List.append_nil, List.mem_flatMap]
  simp only [List.mem_filter, isSchemaFile_iff, and_assoc]
  refine exists_congr fun entry => and_congr_right fun hentry => and_congr_right fun hname => ?_
  obtain ⟨own, hown⟩ := hloadable.described entry hentry hname
  rw [hown.ownOf_eq]
  constructor
  · intro hmem
    exact ⟨own, hown, hmem⟩
  · rintro ⟨other, hother, hmem⟩
    rwa [hown.unique hother]

theorem filter_isSchemaFile_eq_nil_iff :
    entries.filter isSchemaFile = [] ↔ ∀ entry ∈ entries, ¬ IsSchemaName entry.name := by
  simp only [List.filter_eq_nil_iff, isSchemaFile_iff]

/-- The lack of schema files is reported, and nothing else; loading nothing succeeds. -/
theorem events_load :
    (load (some entries)).2 =
      if entries.filter isSchemaFile = [] then [.noSchemaFiles] else [] := by
  rw [load]
  cases hfiles : entries.filter isSchemaFile with
  | nil => rfl
  | cons first rest =>
    rw [if_neg (List.cons_ne_nil first rest)]
    cases loadFiles [] (first :: rest) <;> rfl

/-- Whether the entity types of a directory are loaded, which they are, and whether the lack of
schema files is reported, does not depend on the order in which the entries are listed. They are
loaded if each schema file describes entity types, in YAML or else in JSON, and no two describe the
same one, and then they are all that the schema files describe, each once. Another entry changes
nothing, wherever it is listed. The lack of schema files is reported if the loading succeeds and
there are none. -/
theorem loading_independent_of_listing (entries : List Entry) :
    (∀ listed, listed.Perm entries →
      (∀ entities, (load (some listed)).1 = .ok entities ↔ (load (some entries)).1 = .ok entities) ∧
      (load (some listed)).2 = (load (some entries)).2) ∧
    ((∃ entities, (load (some entries)).1 = .ok entities) ↔ Loadable entries) ∧
    (∀ entities, (load (some entries)).1 = .ok entities →
      (entities.map Prod.fst).Nodup ∧ ∀ name paths, (name, paths) ∈ entities ↔
        ∃ entry ∈ entries, IsSchemaName entry.name ∧
          ∃ own, Describes entry own ∧ (name, paths) ∈ own) ∧
    (∀ before other after, entries = before ++ after → ¬ IsSchemaName other.name →
      load (some (before ++ other :: after)) = load (some entries)) ∧
    (.noSchemaFiles ∈ (load (some entries)).2 ↔
      (∃ entities, (load (some entries)).1 = .ok entities) ∧
        ∀ entry ∈ entries, ¬ IsSchemaName entry.name) := by
  have hnone : entries.filter isSchemaFile = [] → Loadable entries := by
    intro hnil
    apply loadable_iff.2
    rw [hnil]
    simp
  refine ⟨?_, exists_load_eq_ok_iff, fun entities => mem_of_load_eq_ok, ?_, ?_⟩
  · intro listed hperm
    constructor
    · intro entities
      exact ⟨load_eq_ok_of_perm hperm.symm, load_eq_ok_of_perm hperm⟩
    · have hnil : listed.filter isSchemaFile = [] ↔ entries.filter isSchemaFile = [] := by
        simp only [filter_isSchemaFile_eq_nil_iff, hperm.mem_iff]
      simp only [events_load, hnil]
  · rintro before other after rfl hother
    have hsame : (before ++ other :: after).filter isSchemaFile =
        (before ++ after).filter isSchemaFile := by
      rw [List.filter_append, List.filter_append,
        List.filter_cons_of_neg (mt isSchemaFile_iff.1 hother)]
    simp only [load, hsame]
  · rw [events_load, exists_load_eq_ok_iff, ← filter_isSchemaFile_eq_nil_iff]
    constructor
    · intro hmem
      split at hmem
      · rename_i hnil
        exact ⟨hnone hnil, hnil⟩
      · cases hmem
    · rintro ⟨-, hnil⟩
      rw [if_pos hnil]
      exact List.mem_singleton_self _

/-- Which fault ends the loading depends on the order. -/
example : (load (some [⟨"a.yaml", .directory⟩, ⟨"b.json", .directory⟩])).1 =
      .error (.unreadable "a.yaml") ∧
    (load (some [⟨"b.json", .directory⟩, ⟨"a.yaml", .directory⟩])).1 =
      .error (.unreadable "b.json") := ⟨rfl, rfl⟩

end FieldVault.OpenApi.Directory
