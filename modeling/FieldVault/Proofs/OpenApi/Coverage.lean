import FieldVault.Proofs.Document.Sealing
import FieldVault.Proofs.OpenApi.Positions

/-!
# Which marked fields are stored encrypted

The documents of an entity type are sealed with the paths that are found in its schema. A text at a
position that the schema marks is stored sealed if the position goes through no array whose items
are arrays themselves, and is stored as it is otherwise
(`marked_texts_sealed_unless_nested`): the path of such a position is found, but it is not read back
as the position.
-/

set_option autoImplicit false

namespace FieldVault.OpenApi.Schema

open Document
open Wipe (ValueId)

variable {marking : Option Datum} {properties : List (String × Schema)} {segments : List Segment}

/-- A marked position without nested arrays is what its own path is read as. -/
theorem parsePath_renderPath_of_marks
    (hnames : (Schema.object marking properties).HasProperNames) (hne : segments ≠ [])
    (hmarks : (Schema.object marking properties).Marks segments) (hnested : ¬ Nested segments) :
    parsePath (renderPath segments) = segments := by
  cases segments with
  | nil => exact absurd rfl hne
  | cons segment rest =>
    obtain ⟨inner, hleads, -⟩ := hmarks
    cases hleads with
    | property member below =>
      exact parsePath_renderPath (hnames _ inner (.property member below)) hnested

/-- Sealing a document with the paths found in a schema succeeds. Every text at a position that the
schema marks becomes an envelope of that text, unless the position asks for the items of items:
then the text stays as it is. -/
theorem marked_texts_sealed_unless_nested (cipher : FieldCipher) (entity : String)
    (hnames : (Schema.object marking properties).HasProperNames)
    {members : List (String × Json)} (hlimit : WithinLimit (.obj members)) (scope : ScopeId)
    {v : Vault} {secret : ValueId} {key : String}
    (hsecret : v.contents? secret = some (.text key)) :
    let schema := Schema.object marking properties
    let c := Collection.new entity schema.encryptedPaths
    ∃ sealed n after,
      (c.sealDocument cipher scope secret (.obj members)).run v = ((sealed, .ok n), after) ∧
      ∀ location text, (Json.obj members).textAt? location = some text →
        schema.Marks (location.map Step.segment) →
          (¬ Nested (location.map Step.segment) →
            ∃ envelope, sealed.textAt? location = some envelope ∧
              c.Seals cipher key (renderPath (location.map Step.segment)) text envelope) ∧
          (Nested (location.map Step.segment) → sealed.textAt? location = some text) := by
  intro schema c
  -- a property stands one step below the schema, so its name is proper
  have hproperties : ∀ entry ∈ properties, entry.1 ≠ "" := by
    intro entry hentry
    exact (hnames _ entry.2 (.property hentry (.here entry.2)) entry.1 List.mem_cons_self).nonempty
  obtain ⟨sealed, after, hrun, hsealed, -⟩ :=
    c.exists_sealed_document cipher scope hlimit hsecret
  refine ⟨sealed, _, after, hrun, fun location text htext hmarks => ⟨fun hnested => ?_,
    fun hnested => ?_⟩⟩
  · -- an object is no text, so a text stands at least one step further
    have hne : location.map Step.segment ≠ [] := by
      intro h
      rw [List.map_eq_nil_iff] at h
      subst h
      cases htext
    -- the path of the position is in the set, and is read back as the position
    refine hsealed.exists_envelope (mem_targets.2 ⟨?_, ?_, ?_⟩) htext
    · exact PathSet.mem_ofList.2 ((mem_encryptedPaths hproperties).2 ⟨_, hne, hmarks, rfl⟩)
    · exact (parsePath_renderPath_of_marks hnames hne hmarks hnested).symm
    · rw [htext]
      rfl
  · -- no path is read as this position
    rw [hsealed.textAt?_of_notMem, htext]
    intro hmem
    obtain ⟨⟨path, other⟩, htarget, rfl⟩ := List.mem_map.1 hmem
    apply not_nested_parsePath path
    rwa [← (mem_targets.1 htarget).2.1]

/-! ### A schema with an array of arrays -/

/-- Customers with the numbers of their cards and with lines of notes, both marked. -/
def customer : Schema :=
  .object none [
    ("cards", .array none (.object none [("number", .other (some (.bool true)))])),
    ("notes", .array none (.array none (.other (some (.bool true)))))]

theorem hasProperNames_customer : customer.HasProperNames := by
  apply hasProperNames_object
  intro entry hentry
  simp only [List.mem_cons, List.not_mem_nil, or_false] at hentry
  rcases hentry with rfl | rfl
  · refine ⟨⟨by decide, by decide, by decide⟩, hasProperNames_array (hasProperNames_object ?_)⟩
    intro entry hentry
    cases List.mem_singleton.1 hentry
    exact ⟨⟨by decide, by decide, by decide⟩, hasProperNames_other⟩
  · exact ⟨⟨by decide, by decide, by decide⟩,
      hasProperNames_array (hasProperNames_array hasProperNames_other)⟩

theorem customer_marks_numbers :
    customer.Marks [.member "cards", .items, .member "number"] :=
  ⟨_, .property List.mem_cons_self (.items (.property List.mem_cons_self (.here _))), rfl⟩

theorem customer_marks_notes : customer.Marks [.member "notes", .items, .items] :=
  ⟨_, .property (List.mem_cons_of_mem _ List.mem_cons_self) (.items (.items (.here _))), rfl⟩

/-- A customer with one card and one note. -/
def customerDocument : Json :=
  .obj [("cards", .arr [.obj [("number", .str "1")]]), ("notes", .arr [.arr [.str "x"]])]

theorem withinLimit_customerDocument : WithinLimit customerDocument := by
  have hcards : WithinLimit (.arr [.obj [("number", .str "1")]]) := by
    refine Json.allTexts_arr (List.forall_mem_singleton.2 (Json.allTexts_obj ?_))
    exact List.forall_mem_singleton.2 (Json.allTexts_str (by decide))
  have hnotes : WithinLimit (.arr [.arr [.str "x"]]) := by
    refine Json.allTexts_arr (List.forall_mem_singleton.2 (Json.allTexts_arr ?_))
    exact List.forall_mem_singleton.2 (Json.allTexts_str (by decide))
  exact Json.allTexts_obj (List.forall_mem_cons.2 ⟨hcards, List.forall_mem_singleton.2 hnotes⟩)

/-- The number of a card is sealed, and a note is not. -/
theorem card_number_sealed :
    customer.HasProperNames ∧ WithinLimit customerDocument ∧
      (Vault.ofTexts ["k"]).contents? 0 = some (.text "k") ∧
      ∃ sealed n after,
        ((Collection.new "Customer" customer.encryptedPaths).sealDocument .standard 0 0
          customerDocument).run (Vault.ofTexts ["k"]) = ((sealed, .ok n), after) ∧
        (∃ envelope,
          sealed.textAt? [.member "cards", .item 0, .member "number"] = some envelope ∧
          FieldCipher.standard.openedText "k" "Customer.cards[].number" envelope = .ok "1") ∧
        sealed.textAt? [.member "notes", .item 0, .item 0] = some "x" := by
  have hsecret : (Vault.ofTexts ["k"]).contents? 0 = some (.text "k") := rfl
  obtain ⟨sealed, n, after, hrun, htexts⟩ := marked_texts_sealed_unless_nested .standard "Customer"
    hasProperNames_customer withinLimit_customerDocument 0 hsecret
  refine ⟨hasProperNames_customer, withinLimit_customerDocument, hsecret, sealed, n, after, hrun,
    ?_, ?_⟩
  · obtain ⟨envelope, hstands, hopens, -⟩ :=
      (htexts [.member "cards", .item 0, .member "number"] "1" rfl customer_marks_numbers).1
        (by decide)
    exact ⟨envelope, hstands, hopens⟩
  · exact (htexts [.member "notes", .item 0, .item 0] "x" rfl customer_marks_notes).2
      ⟨[.member "notes"], [], rfl⟩

/-- A document whose only text is a marked note is stored as it is. -/
theorem note_stored_plain :
    customer.HasProperNames ∧ customer.Marks [.member "notes", .items, .items] ∧
      ((Collection.new "Customer" customer.encryptedPaths).sealDocument .standard 0 0
        (.obj [("notes", .arr [.arr [.str "x"]])])).run (Vault.ofTexts ["k"]) =
        ((.obj [("notes", .arr [.arr [.str "x"]])], .ok 0), Vault.ofTexts ["k"]) :=
  ⟨hasProperNames_customer, customer_marks_notes, rfl⟩

end FieldVault.OpenApi.Schema
