import FieldVault.Proofs.Document.Step
import Mathlib.Data.List.Nodup

/-!
# Where the texts of a document stand

A location says step by step where a text stands in a value. A list of segments leads to the texts
at its `locations`, in the order of the items of arrays: these are exactly the locations of texts
whose steps match the segments (`mem_locations`), and none is listed twice (`nodup_locations`).
Texts at different locations are replaced independently of each other (`textAt?_setText_of_ne`,
`setText_comm`), and replacing a text moves none (`locations_setText`).
-/

set_option autoImplicit false

namespace FieldVault

/-- The way to a value from the root on. -/
abbrev Document.Location := List Document.Step

namespace Json

open Document

/-- The text at a location. -/
def textAt? : Location → Json → Option String
  | [], value => value.text?
  | step :: rest, value => (value.child? step).bind (textAt? rest)

/-- The value with another text at a location; nothing changes where no text stands. -/
def setText : Location → String → Json → Json
  | [], text => replaceText text
  | step :: rest, text => modifyChild step (setText rest text)

/-- The locations of the texts that a list of segments leads to. -/
def locations : List Segment → Json → List Location
  | [], value => (value.text?.map fun _ => []).toList
  | segment :: rest, value =>
    (children segment value).flatMap fun entry => (locations rest entry.2).map (entry.1 :: ·)

/-- What holds of every text of a value. -/
def AllTexts (p : String → Prop) (value : Json) : Prop :=
  ∀ location text, value.textAt? location = some text → p text

variable {location other : Location} {text : String} {value : Json}

/-! ### Reading and replacing -/

@[simp] theorem textAt?_replaceText_cons (step : Step) (rest : Location) :
    (replaceText text value).textAt? (step :: rest) = value.textAt? (step :: rest) := by
  rw [textAt?, child?_replaceText, textAt?]

/-- A text that was replaced is the new one. -/
theorem textAt?_setText_self (h : (value.textAt? location).isSome) :
    (value.setText location text).textAt? location = some text := by
  induction location generalizing value with
  | nil =>
    cases value with
    | str old => rfl
    | _ => cases h
  | cons step rest ih =>
    rw [textAt?] at h
    rw [textAt?, setText, child?_modifyChild_self]
    cases hchild : value.child? step with
    | none =>
      rw [hchild] at h
      cases h
    | some child =>
      rw [hchild] at h
      exact ih h

/-- Texts at other locations stay. -/
theorem textAt?_setText_of_ne (h : location ≠ other) :
    (value.setText location text).textAt? other = value.textAt? other := by
  induction location generalizing other value with
  | nil =>
    cases other with
    | nil => exact absurd rfl h
    | cons step rest => exact textAt?_replaceText_cons step rest
  | cons step rest ih =>
    cases other with
    | nil => exact text?_modifyChild value
    | cons otherStep otherRest =>
      rw [setText, textAt?, textAt?]
      -- the locations part at this step, or further on inside the same child
      by_cases hstep : step = otherStep
      · have hrest : rest ≠ otherRest := fun heq => h (by rw [hstep, heq])
        rw [← hstep, child?_modifyChild_self]
        cases value.child? step with
        | none => rfl
        | some child => exact ih hrest
      · rw [child?_modifyChild_of_ne hstep]

/-- Of two texts put at one location the second one stays. -/
theorem setText_setText (location : Location) (first second : String) (value : Json) :
    (value.setText location first).setText location second = value.setText location second := by
  induction location generalizing value with
  | nil => cases value <;> rfl
  | cons step rest ih =>
    rw [setText, setText, modifyChild_modifyChild]
    congr 1
    funext child
    exact ih child

/-- Texts at different locations may be replaced in any order. -/
theorem setText_comm (h : location ≠ other) (first second : String) (value : Json) :
    (value.setText location first).setText other second =
      (value.setText other second).setText location first := by
  induction location generalizing other value with
  | nil =>
    cases other with
    | nil => exact absurd rfl h
    | cons step rest => exact modifyChild_replaceText first value
  | cons step rest ih =>
    cases other with
    | nil => exact (modifyChild_replaceText second value).symm
    | cons otherStep otherRest =>
      rw [setText, setText]
      by_cases hstep : step = otherStep
      · have hrest : rest ≠ otherRest := fun heq => h (by rw [hstep, heq])
        rw [← hstep, modifyChild_modifyChild, modifyChild_modifyChild]
        congr 1
        funext child
        exact ih hrest child
      · exact modifyChild_comm hstep value

/-- Putting a text where it stands changes nothing. -/
theorem setText_eq_self (h : value.textAt? location = some text) :
    value.setText location text = value := by
  induction location generalizing value with
  | nil =>
    cases value with
    | str old =>
      cases h
      rfl
    | _ => cases h
  | cons step rest ih =>
    obtain ⟨child, hchild, hrest⟩ := Option.bind_eq_some_iff.1 h
    exact modifyChild_eq_self hchild (ih hrest)

/-! ### All texts -/

section

variable {p : String → Prop}

theorem allTexts_str (h : p text) : AllTexts p (.str text) := by
  intro location found hfound
  cases location with
  | nil =>
    cases hfound
    exact h
  | cons step rest => cases step <;> cases hfound

theorem allTexts_arr {items : List Json} (h : ∀ item ∈ items, AllTexts p item) :
    AllTexts p (.arr items) := by
  intro location found hfound
  cases location with
  | nil => cases hfound
  | cons step rest =>
    obtain ⟨child, hchild, hrest⟩ := Option.bind_eq_some_iff.1 hfound
    cases step with
    | member name => cases hchild
    | item index => exact h child (List.mem_of_getElem? hchild) rest found hrest

theorem allTexts_obj {members : List (String × Json)}
    (h : ∀ member ∈ members, AllTexts p member.2) :
    AllTexts p (.obj members) := by
  -- what is found under a name is one of the members, if not the only one of the name
  have hmem : ∀ {name child}, lookup? name members = some child → ∃ member ∈ members,
      member.2 = child := by
    intro name child hlookup
    induction members with
    | nil => cases hlookup
    | cons first rest ih =>
      rw [lookup?] at hlookup
      split at hlookup
      · exact ⟨first, List.mem_cons_self, Option.some.inj hlookup⟩
      · obtain ⟨member, hmember, hvalue⟩ :=
          ih (fun member hmember => h member (List.mem_cons_of_mem _ hmember)) hlookup
        exact ⟨member, List.mem_cons_of_mem _ hmember, hvalue⟩
  intro location found hfound
  cases location with
  | nil => cases hfound
  | cons step rest =>
    obtain ⟨child, hchild, hrest⟩ := Option.bind_eq_some_iff.1 hfound
    cases step with
    | member name =>
      obtain ⟨member, hmember, rfl⟩ := hmem hchild
      exact h member hmember rest found hrest
    | item index => cases hchild

end

/-! ### Where segments lead -/

/-- Segments lead to the texts whose locations match them, and to nothing else. -/
theorem mem_locations {segments : List Segment} :
    location ∈ locations segments value ↔
      location.map Step.segment = segments ∧ (value.textAt? location).isSome := by
  induction segments generalizing location value with
  | nil =>
    cases location with
    | nil => cases h : value.text? <;> simp [locations, textAt?, h]
    | cons step rest => simp [locations]
  | cons segment segments ih =>
    rw [locations, List.mem_flatMap]
    constructor
    · rintro ⟨⟨step, child⟩, hentry, hmem⟩
      obtain ⟨rest, hrest, rfl⟩ := List.mem_map.1 hmem
      obtain ⟨hsegment, hchild⟩ := mem_children.1 hentry
      obtain ⟨hmatch, htext⟩ := ih.1 hrest
      refine ⟨?_, ?_⟩
      · rw [List.map_cons, hsegment, hmatch]
      · rw [textAt?, hchild]
        exact htext
    · rintro ⟨hmatch, htext⟩
      cases location with
      | nil => cases hmatch
      | cons step rest =>
        obtain ⟨hsegment, hrest⟩ := List.cons.inj hmatch
        rw [textAt?] at htext
        cases hchild : value.child? step with
        | none =>
          rw [hchild] at htext
          cases htext
        | some child =>
          rw [hchild] at htext
          exact ⟨(step, child), mem_children.2 ⟨hsegment, hchild⟩,
            List.mem_map.2 ⟨rest, ih.2 ⟨hrest, htext⟩, rfl⟩⟩

/-- Segments lead to every location once. -/
theorem nodup_locations (segments : List Segment) (value : Json) :
    (locations segments value).Nodup := by
  induction segments generalizing value with
  | nil => cases h : value.text? <;> simp [locations, h]
  | cons segment segments ih =>
    rw [locations, List.nodup_flatMap]
    refine ⟨fun entry _ => ?_, ?_⟩
    · exact (ih entry.2).map (List.cons_injective)
    · -- locations that start with different steps differ
      apply (List.pairwise_map.1 (nodup_children segment value)).imp
      intro entry other hne location hmem hother
      obtain ⟨rest, -, rfl⟩ := List.mem_map.1 hmem
      obtain ⟨otherRest, -, heq⟩ := List.mem_map.1 hother
      exact hne (List.cons.inj heq).1.symm

/-- Replacing a text moves none. -/
@[simp] theorem locations_setText (segments : List Segment) (location : Location) (text : String)
    (value : Json) :
    locations segments (value.setText location text) = locations segments value := by
  induction segments generalizing location value with
  | nil =>
    cases location with
    | nil => cases value <;> rfl
    | cons step rest => rw [locations, locations, setText, text?_modifyChild]
  | cons segment segments ih =>
    cases location with
    | nil => rw [locations, locations, setText, children_replaceText]
    | cons step rest =>
      -- the children stay where they are, and so do the texts inside the changed one
      rw [locations, locations, setText, children_modifyChild, List.flatMap_map]
      congr 1
      funext entry
      split
      · rw [ih]
      · rfl

end Json

end FieldVault
