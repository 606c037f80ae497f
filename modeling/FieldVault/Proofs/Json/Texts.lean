import FieldVault.Proofs.Document.Location

/-!
# The texts of a value as it stands in a text

A value that was read may hold several members of one name, of which its canonical form keeps the
last one. `EveryText p` says that all its texts have the property `p`, those of repeated members
included; then so do the texts of the canonical form (`EveryText.canonical`), and those found at
locations (`EveryText.allTexts`).
-/

set_option autoImplicit false

namespace FieldVault.Json

/-- What holds of every text in a value, members with repeated names included. -/
inductive EveryText (p : String → Prop) : Json → Prop where
  | null : EveryText p .null
  | bool (b : Bool) : EveryText p (.bool b)
  | int (i : Int) : EveryText p (.int i)
  | double (x : Binary64) : EveryText p (.double x)
  | str {text : String} (h : p text) : EveryText p (.str text)
  | arr {items : List Json} (h : ∀ item ∈ items, EveryText p item) : EveryText p (.arr items)
  | obj {members : List (String × Json)} (h : ∀ member ∈ members, EveryText p member.2) :
    EveryText p (.obj members)

variable {p : String → Prop}

/-- What holds of every text holds of those that have a location. -/
theorem EveryText.allTexts {value : Json} (h : EveryText p value) : AllTexts p value := by
  induction h with
  | str htext => exact allTexts_str htext
  | arr _ ih => exact allTexts_arr ih
  | obj _ ih => exact allTexts_obj ih
  | null | bool | int | double =>
    -- neither a text nor anything to step into
    intro location text hfound
    cases location with
    | nil => cases hfound
    | cons step rest => cases step <;> cases hfound

theorem canonicalItems_eq (items : List Json) : canonicalItems items = items.map canonical := by
  induction items with
  | nil => rfl
  | cons item rest ih => rw [canonicalItems, ih, List.map_cons]

/-- The members of a canonical object are members that were seen or the canonical forms of
others. -/
theorem everyText_canonicalMembers {members seen : List (String × Json)}
    (hseen : ∀ member ∈ seen, EveryText p member.2)
    (hmembers : ∀ member ∈ members, EveryText p member.2.canonical) :
    ∀ member ∈ canonicalMembers seen members, EveryText p member.2 := by
  induction members generalizing seen with
  | nil => exact hseen
  | cons first rest ih =>
    obtain ⟨name, value⟩ := first
    obtain ⟨hfirst, hrest⟩ := List.forall_mem_cons.1 hmembers
    refine ih (fun member hmember => ?_) hrest
    rcases mem_insertMember hmember with rfl | hold
    · exact hfirst
    · exact hseen member hold

/-- The canonical form has no texts that the value does not have. -/
theorem EveryText.canonical {value : Json} (h : EveryText p value) :
    EveryText p value.canonical := by
  induction h with
  | null => exact .null
  | bool b => exact .bool b
  | int i => exact .int i
  | double x => exact .double x
  | str htext => exact .str htext
  | arr _ ih =>
    rw [Json.canonical, canonicalItems_eq]
    refine .arr fun item hitem => ?_
    obtain ⟨found, hfound, rfl⟩ := List.mem_map.1 hitem
    exact ih found hfound
  | obj _ ih =>
    rw [Json.canonical]
    exact .obj (everyText_canonicalMembers (List.forall_mem_nil _) ih)

end FieldVault.Json
