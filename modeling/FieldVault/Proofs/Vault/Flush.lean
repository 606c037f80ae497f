import FieldVault.Lifecycle
import FieldVault.Proofs.Vault.Frame
import FieldVault.Proofs.Vault.Handles

/-!
# The end of a scope

Flushing a scope and giving up a handle on it wipe what the scope tracks and nothing else. A unit of
work gets a scope that is new, so all that its scope ever tracks are values of the work, and the
whole unit with its flush leaves the older values alone, however the work goes on
(`frame_endScope`).
-/

set_option autoImplicit false

namespace FieldVault.Vault

open Wipe

variable {base : Nat} {scope : ScopeId} {extra : List ValueId} {v w : Vault}

/-! ### The operations -/

/-- Flushing a scope whose members belong to the work is framed. -/
theorem frame_flush (hsize : base ≤ v.cells.size) (h : ∀ id ∈ v.members scope, base ≤ id) :
    Frame base scope extra v (v.flushed scope) := by
  refine ⟨?_, fun id hid => ?_, fun other hother => ?_, fun id hid => ?_⟩
  · rw [size_cells_flushed]
    exact hsize
  · have hnot : id ∉ v.members scope := fun hmember => Nat.not_le_of_lt hid (h id hmember)
    rw [getElem?_flushed]
    simp only [hnot, false_and, if_false, Option.map_id']
  · -- the members were forgotten before they are wiped, so the wiping leaves all scopes alone
    rw [flushed, wipeLiving_scopes]
    exact scopes_setMembers_of_ne v hother []
  · -- nothing is tracked any more
    rw [members_flushed, if_pos rfl] at hid
    cases hid

/-- A scope that keeps its members is framed, whatever becomes of its handles. -/
theorem frame_modifyScope (hsize : base ≤ v.cells.size) (handles : Scope → Nat) :
    Frame base scope extra v
      { v with scopes := v.scopes.modify scope fun s => { s with handles := handles s } } := by
  refine ⟨hsize, fun _ _ => rfl, fun other hother => ?_, fun id hid => .inl ?_⟩
  · rw [Array.getElem?_modify, if_neg (Ne.symm hother)]
  · rwa [members_modify_handles] at hid

/-- What is done when the last handle of a scope goes is framed if its members belong to the
work. -/
theorem frame_dropScope (hsize : base ≤ v.cells.size) (h : ∀ id ∈ v.members scope, base ≤ id) :
    Frame base scope extra v (v.dropScope scope) := by
  rw [dropScope_eq]
  split
  · exact Frame.refl hsize
  · have hwiped : Frame base scope extra v (v.flushed scope) := frame_flush hsize h
    exact hwiped.trans (Frame.addEvent hwiped.size _)

/-- Giving up a handle on a scope whose members belong to the work is framed. -/
theorem frame_releaseScope (hsize : base ≤ v.cells.size) (h : ∀ id ∈ v.members scope, base ≤ id) :
    Frame base scope [] v ((releaseScope scope).run v).2 := by
  have hless : Frame base scope [] v (v.scopeLowered scope) :=
    frame_modifyScope hsize fun s => s.handles - 1
  rw [releaseScope_run, scopeReleased_eq]
  -- the last handle, and one handle of several
  split
  · exact hless.trans (frame_dropScope hless.size (hless.members_le h))
  · exact hless

/-- Beginning a scope is framed, for the scope that is begun. -/
theorem frame_beginScope (hsize : base ≤ v.cells.size) :
    Frame base v.scopes.size extra v (beginScope.run v).2 := by
  have hrun : (beginScope.run v).2 = { v with scopes := v.scopes.push ⟨[], 1⟩ } := rfl
  rw [hrun]
  refine ⟨hsize, fun _ _ => rfl, fun other hother => ?_, fun id hid => ?_⟩
  · rw [Array.getElem?_push, if_neg hother]
  · rw [members, Array.getElem?_push_size] at hid
    cases hid

/-- One more handle on a scope is framed. -/
theorem frame_retainScope (hsize : base ≤ v.cells.size) :
    Frame base scope extra v ((retainScope scope).run v).2 :=
  frame_modifyScope hsize fun s => s.handles + 1

/-- The end of a unit of work is framed: its handle on the scope goes, the scope is flushed, and the
other handle goes. -/
theorem frame_endScope (hsize : base ≤ v.cells.size) (h : ∀ id ∈ v.members scope, base ≤ id) :
    Frame base scope [] v
      ((releaseScope scope).run ((flush scope).run ((releaseScope scope).run v).2).2).2 := by
  have hfirst := frame_releaseScope hsize h
  have hboth := hfirst.trans (frame_flush hfirst.size (hfirst.members_le h))
  exact hboth.trans (frame_releaseScope hboth.size (hboth.members_le h))

end FieldVault.Vault
