import FieldVault.Proofs.Document.Visits

/-!
# Documents with texts replaced

Sealing and opening a document put new texts at the targets of a visit. `Replaced` says what the
result is: which text stands at each target, that all other texts stand as before, and that apart
from the texts at the targets the two documents are one. Replacing one text more, at a location that
is not among the others, is such a replacement again (`Replaced.cons`).
-/

set_option autoImplicit false

namespace FieldVault.Document

open Json

/-- The calls for some targets of a document, one for each text that stands there. -/
def callsFor (list : List Target) (document : Json) : List Call :=
  list.filterMap fun target => (document.textAt? target.2).map fun text => (target.1, text)

/-- The second document is the first one with the texts of some targets replaced. For target number
`k`, `stands k` holds of its path, the text before and the text after. -/
structure Replaced (stands : Nat → String → String → String → Prop) (list : List Target)
    (before after : Json) : Prop where
  texts : ∀ k path location text, list[k]? = some (path, location) →
    before.textAt? location = some text →
    ∃ new, after.textAt? location = some new ∧ stands k path text new
  /-- Other texts stand as before. -/
  others : ∀ location, location ∉ list.map Prod.snd →
    after.textAt? location = before.textAt? location
  /-- Apart from the texts at the targets nothing is changed. -/
  rest : blank (list.map Prod.snd) after = blank (list.map Prod.snd) before

variable {list : List Target} {document : Json} {path text : String} {location : Location}

/-- A target where a text stands is called for first. -/
theorem callsFor_cons (h : document.textAt? location = some text) :
    callsFor ((path, location) :: list) document = (path, text) :: callsFor list document := by
  rw [callsFor, List.filterMap_cons_some]
  · rfl
  · rw [h, Option.map_some]

/-- A text that is not blanked may be replaced before or after. -/
theorem blank_setText_of_notMem {locations : List Location} (h : location ∉ locations)
    (text : String) (document : Json) :
    blank locations (document.setText location text) =
      (blank locations document).setText location text := by
  induction locations generalizing document with
  | nil => rfl
  | cons other rest ih =>
    rw [List.mem_cons, not_or] at h
    rw [blank, blank, List.foldl_cons, List.foldl_cons, setText_comm h.1]
    exact ih h.2 _

namespace Replaced

variable {stands : Nat → String → String → String → Prop}

theorem nil (document : Json) : Replaced stands [] document document :=
  ⟨fun _ _ _ _ h => (nomatch h), fun _ _ => rfl, rfl⟩

/-- One more text, at a location of its own, is replaced before the others. -/
theorem cons {after : Json} {new : String} (hfresh : location ∉ list.map Prod.snd)
    (hfound : document.textAt? location = some text) (hnew : stands 0 path text new)
    (h : Replaced (fun k => stands (k + 1)) list document after) :
    Replaced stands ((path, location) :: list) document (after.setText location new) := by
  have hstands : (after.setText location new).textAt? location = some new := by
    refine textAt?_setText_self ?_
    rw [h.others location hfresh, hfound]
    rfl
  refine ⟨fun k path' location' text' hk htext => ?_, fun other hother => ?_, ?_⟩
  · cases k with
    | zero =>
      cases hk
      cases hfound.symm.trans htext
      exact ⟨new, hstands, hnew⟩
    | succ k =>
      obtain ⟨stood, hafter, hstood⟩ := h.texts k path' location' text' hk htext
      refine ⟨stood, ?_, hstood⟩
      rw [← hafter]
      refine textAt?_setText_of_ne ?_
      rintro rfl
      exact hfresh (List.mem_map.2 ⟨_, List.mem_of_getElem? hk, rfl⟩)
  · rw [List.map_cons, List.mem_cons, not_or] at hother
    rw [textAt?_setText_of_ne (Ne.symm hother.1), h.others other hother.2]
  · -- the new text is blanked, and so is the one that stood there before
    have hfirst : ∀ value : Json, blank (((path, location) :: list).map Prod.snd) value =
        (blank (list.map Prod.snd) value).setText location "" := fun value =>
      blank_setText_of_notMem hfresh "" value
    rw [hfirst, hfirst, blank_setText_of_notMem hfresh, setText_setText, h.rest]

end Replaced

end FieldVault.Document
