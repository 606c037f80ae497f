import FieldVault.Document.Collection
import FieldVault.Proofs.Cipher.Frame
import FieldVault.Proofs.Document.Traversal

/-!
# Documents are sealed and opened apart from everything else

A visit whose visitor only works on values of its own does so as a whole (`frame_visitTargets`).
Sealing and opening a document are such visits, whatever the document and however they end
(`frame_sealDocument`, `frame_openDocument`).
-/

set_option autoImplicit false

namespace FieldVault.Document

open Vault
open Wipe (ValueId)

/-- A framed visitor makes a framed visit. -/
theorem frame_visitTargets {base : Nat} {scope : ScopeId} {extra : List ValueId} {ε : Type}
    {visitor : String → String → VaultM (Except ε String)}
    (hvisitor : ∀ path leaf v, base ≤ v.cells.size →
      Frame base scope extra v ((visitor path leaf).run v).2) (list : List Target)
    (document : Json) {v : Vault} (hsize : base ≤ v.cells.size) :
    Frame base scope extra v ((visitTargets visitor list document).run v).2 := by
  -- the induction is on the targets, for whatever vault and document the visit has reached
  induction list generalizing document v with
  | nil => exact Frame.refl hsize
  | cons target rest ih =>
    obtain ⟨path, location⟩ := target
    rw [visitTargets]
    cases document.textAt? location with
    | none => exact ih document hsize
    | some text =>
      have hstep := hvisitor path text v hsize
      simp only [run_bind]
      generalize (visitor path text).run v = result at hstep ⊢
      obtain ⟨e | new, after⟩ := result
      · exact hstep
      · exact hstep.trans (ih _ hstep.size)

namespace Collection

variable (c : Collection) (cipher : FieldCipher) (scope : ScopeId)

/-- What sealing does with a field. -/
def sealField (secret : ValueId) (path leaf : String) : VaultM (Except Cipher.Fault String) :=
  cipher.tryEncryptText scope secret (c.fieldContext path) leaf

/-- A field that is opened is the text of its envelope, or stays as it is with a report. -/
theorem openField_spec (secret : ValueId) (path leaf : String) (v : Vault) :
    let outcome := cipher.openedText (v.text secret) (c.fieldContext path) leaf
    ∃ after, (c.openField cipher scope secret path leaf).run v =
        (.ok (FieldCipher.textOrInput leaf outcome), after) ∧
      after.events = v.events ++ FieldCipher.reportsOf (c.fieldContext path) leaf outcome ∧
      Frame v.cells.size scope [secret] v after := by
  intro outcome
  obtain ⟨id, middle, hrun, hid, hcontents, hevents, hframe⟩ :=
    cipher.decryptText_spec scope secret (c.fieldContext path) leaf v
  refine ⟨middle.letGo id, ?_, hevents, hframe.trans (Frame.letGo hframe.size hid)⟩
  simp only [openField, run_bind, hrun, run_get, run_pure, release_run,
    text_of_contents? hcontents]
  rfl

variable {base : Nat} {secret : ValueId} {v : Vault}

/-- Sealing a document with a secret of the work is framed. -/
theorem frame_sealDocument (hsecret : base ≤ secret) (document : Json)
    (hsize : base ≤ v.cells.size) :
    Frame base scope [] v ((c.sealDocument cipher scope secret document).run v).2 := by
  have hvisitor : ∀ path leaf v, base ≤ v.cells.size →
      Frame base scope [] v ((c.sealField cipher scope secret path leaf).run v).2 := by
    intro path leaf v hsize
    exact (cipher.frame_tryEncryptText scope secret _ leaf v).absorb hsize hsecret
  have hvisit := frame_visitTargets hvisitor (targets c.fields document) document hsize
  rwa [← forEachField_eq_visitTargets] at hvisit

/-- Opening a document with a secret of the work is framed. -/
theorem frame_openDocument (hsecret : base ≤ secret) (document : Json)
    (hsize : base ≤ v.cells.size) :
    Frame base scope [] v ((c.openDocument cipher scope secret document).run v).2 := by
  have hvisitor : ∀ path leaf v, base ≤ v.cells.size →
      Frame base scope [] v ((c.openField cipher scope secret path leaf).run v).2 := by
    intro path leaf v hsize
    obtain ⟨after, hrun, -, hframe⟩ := c.openField_spec cipher scope secret path leaf v
    rw [hrun]
    exact hframe.absorb hsize hsecret
  have hvisit := frame_visitTargets hvisitor (targets c.fields document) document hsize
  rw [← forEachField_eq_visitTargets] at hvisit
  rw [openDocument]
  simp only [run_bind]
  generalize (forEachField (c.openField cipher scope secret) c.fields document).run v = result
    at hvisit ⊢
  -- a field that does not open stays as it is, so the visit does not fail
  obtain ⟨⟨opened, never | n⟩, after⟩ := result
  · exact never.elim
  · exact hvisit

end Collection

end FieldVault.Document
