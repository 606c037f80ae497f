import FieldVault.Proofs.Cipher.Outcome
import FieldVault.Proofs.Vault.Frame
import FieldVault.Proofs.Vault.Handles

/-!
# Work that only adds

A call of a cipher, and every command that makes a value, takes handles on new values alone: what
was there before keeps its contents and its handles. `Grows known scope spare v w` says that the
vault `w` has come from `v` in this way, that of the new values those in `spare` have a handle
that is yet to be placed, and that no scope but `scope` tracks more, namely known or new values.
-/

set_option autoImplicit false

namespace FieldVault

open Wipe

namespace Vault

/-- The vault `w` comes from `v` by making values, of which those in `spare` have a handle, and by
tracking new values and those of the list `known` in one scope. -/
structure Grows (known : List ValueId) (scope : ScopeId) (spare : List ValueId) (v w : Vault) :
    Prop where
  size_le : v.cells.size ≤ w.cells.size
  /-- Older values keep their contents and their handles. -/
  older : ∀ id, id < v.cells.size → w.cells[id]? = v.cells[id]?
  /-- New values have the handles that are yet to be placed. -/
  newer : ∀ id, v.cells.size ≤ id → w.handlesOn id = spare.count id
  /-- The handles that are yet to be placed are on new values. -/
  fresh : ∀ id ∈ spare, v.cells.size ≤ id
  /-- One scope tracks more, all of it known or new. -/
  scopes : ∃ ids, (∀ id ∈ ids, id ∈ known ∨ v.cells.size ≤ id ∧ id < w.cells.size) ∧
    w.scopes = (v.track scope ids).scopes

variable {known : List ValueId} {scope : ScopeId} {spare : List ValueId} {v w x : Vault}

/-- Tracking nothing more changes nothing. -/
theorem track_nil (v : Vault) (scope : ScopeId) : v.track scope [] = v := by
  have hscopes : (v.setMembers scope (v.members scope)).scopes = v.scopes := by
    apply Array.ext_getElem?
    intro i
    rw [setMembers, Array.getElem?_modify]
    split
    · rename_i heq
      rw [← heq, members_eq]
      cases v.scopes[scope]? with
      | none => rfl
      | some s => rfl
    · rfl
  exact congrArg (fun scopes => { v with scopes := scopes }) hscopes

/-- What tracking does to the scopes depends on the scopes alone. -/
theorem track_scopes_congr (h : w.scopes = v.scopes) (scope : ScopeId) (ids : List ValueId) :
    (w.track scope ids).scopes = (v.track scope ids).scopes := by
  have hmembers : w.members scope = v.members scope := members_congr (by rw [h])
  rw [track, track, setMembers, setMembers, hmembers, h]

namespace Grows

theorem refl (v : Vault) : Grows known scope [] v v := by
  refine ⟨Nat.le_refl _, fun _ _ => rfl, fun id hid => ?_, ?_, [], ?_, ?_⟩
  · exact handlesOn_of_size_le hid
  · intro id hid
    cases hid
  · intro id hid
    cases hid
  · rw [track_nil]

/-- Whatever leaves the values and the scopes alone adds nothing. -/
theorem congr (h : Grows known scope spare v w) (hcells : x.cells = w.cells)
    (hscopes : x.scopes = w.scopes) : Grows known scope spare v x := by
  refine ⟨?_, fun id hid => ?_, fun id hid => ?_, h.fresh, ?_⟩
  · rw [hcells]
    exact h.size_le
  · rw [hcells]
    exact h.older id hid
  · rw [← h.newer id hid]
    exact handlesOn_congr (by rw [hcells])
  · rw [hcells, hscopes]
    exact h.scopes

/-- The order in which handles are yet to be placed does not matter. -/
theorem perm (h : Grows known scope spare v w) {others : List ValueId}
    (hperm : spare.Perm others) : Grows known scope others v w := by
  refine ⟨h.size_le, h.older, fun id hid => ?_, fun id hid => ?_, h.scopes⟩
  · rw [h.newer id hid]
    exact hperm.count_eq id
  · exact h.fresh id (hperm.mem_iff.2 hid)

/-- The scopes other than the one that tracks more keep what they track. -/
theorem members_of_ne (h : Grows known scope spare v w) {other : ScopeId} (hne : other ≠ scope) :
    w.members other = v.members other := by
  obtain ⟨ids, -, hscopes⟩ := h.scopes
  rw [← members_congr (scopes_setMembers_of_ne v hne (addMembers (v.members scope) ids))]
  exact members_congr (congrArg (·[other]?) hscopes)

/-- Work that only adds is framed. -/
theorem frame (h : Grows known scope spare v w) : Frame v.cells.size scope known v w := by
  obtain ⟨ids, hids, hscopes⟩ := h.scopes
  refine ⟨h.size_le, h.older, fun other hother => ?_, fun id hid => ?_⟩
  · rw [hscopes]
    exact scopes_setMembers_of_ne v hother _
  · rw [members_congr (congrArg (·[scope]?) hscopes)] at hid
    rcases mem_members_track hid with hold | hadded
    · exact .inl hold
    · exact .inr ((hids id hadded).imp_right And.left)

/-- The handles that are yet to be placed come on top of those that were there. -/
theorem handlesOn (h : Grows known scope spare v w) (id : ValueId) :
    w.handlesOn id = v.handlesOn id + spare.count id := by
  by_cases hid : id < v.cells.size
  · have hnone : spare.count id = 0 :=
      List.count_eq_zero_of_not_mem fun hmem => Nat.not_le_of_lt hid (h.fresh id hmem)
    rw [handlesOn_congr (h.older id hid), hnone, Nat.add_zero]
  · have hnew := Nat.le_of_not_lt hid
    rw [h.newer id hnew, handlesOn_of_size_le hnew, Nat.zero_add]

/-! ### The changes of a vault -/

/-- A new value with one handle, which is yet to be placed. -/
theorem addCell (h : Grows known scope spare v w) (contents : Contents) :
    Grows known scope (w.cells.size :: spare) v (w.addCell ⟨contents, 1⟩) := by
  have hsize : (w.addCell ⟨contents, 1⟩).cells.size = w.cells.size + 1 := by
    rw [addCell_cells, Array.size_push]
  obtain ⟨ids, hids, hscopes⟩ := h.scopes
  have hle := h.size_le
  refine ⟨by omega, fun id hid => ?_, fun id hid => ?_, fun id hid => ?_, ids, fun id hid => ?_,
    hscopes⟩
  · rw [addCell_cells, Array.getElem?_push, if_neg (by omega)]
    exact h.older id hid
  · rw [handlesOn_addCell, List.count_cons]
    split
    · rename_i heq
      -- nothing stood there before
      have hnone : w.handlesOn id = 0 := handlesOn_of_size_le (Nat.le_of_eq heq.symm)
      rw [← h.newer id hid, hnone, heq, if_pos (by simp)]
    · rename_i hne
      rw [if_neg (by simpa using Ne.symm hne), h.newer id hid, Nat.add_zero]
  · rcases List.mem_cons.1 hid with rfl | hid
    · exact hle
    · exact h.fresh id hid
  · rcases hids id hid with hknown | hnew
    · exact .inl hknown
    · exact .inr ⟨hnew.1, hsize ▸ Nat.lt_succ_of_lt hnew.2⟩

/-- A handle that was yet to be placed is given up. -/
theorem letGo {id : ValueId} (h : Grows known scope (id :: spare) v w) :
    Grows known scope spare v (w.letGo id) := by
  have hsize : (w.letGo id).cells.size = w.cells.size := Array.size_modify
  have hid := h.fresh id List.mem_cons_self
  refine ⟨hsize ▸ h.size_le, fun other hother => ?_, fun other hother => ?_,
    fun other hother => h.fresh other (List.mem_cons_of_mem _ hother), hsize ▸ h.scopes⟩
  · rw [letGo_cells, Array.getElem?_modify, if_neg (by omega)]
    exact h.older other hother
  · rw [handlesOn_letGo, h.newer other hother, List.count_cons]
    by_cases heq : id = other
    · simp [heq]
    · simp [heq]

/-- The scope tracks more. -/
theorem track (h : Grows known scope spare v w) {ids : List ValueId}
    (hids : ∀ id ∈ ids, id ∈ known ∨ v.cells.size ≤ id ∧ id < w.cells.size) :
    Grows known scope spare v (w.track scope ids) := by
  obtain ⟨before, hbefore, hscopes⟩ := h.scopes
  refine ⟨h.size_le, h.older, h.newer, h.fresh, before ++ ids, fun id hid => ?_, ?_⟩
  · rcases List.mem_append.1 hid with hid | hid
    · exact hbefore id hid
    · exact hids id hid
  · rw [← track_track]
    exact track_scopes_congr hscopes scope ids

/-- A new tracked value. -/
theorem addTracked (h : Grows known scope spare v w) (contents : Contents) :
    Grows known scope (w.cells.size :: spare) v (w.addTracked scope contents) := by
  refine (h.addCell contents).track fun id hid => .inr ?_
  rw [List.mem_singleton.1 hid, addCell_cells, Array.size_push]
  exact ⟨h.size_le, Nat.lt_succ_self _⟩

/-- A key that was derived with a known secret and is spent. -/
theorem spendKey (h : Grows known scope spare v w) {secret : ValueId} (hsecret : secret ∈ known) :
    Grows known scope spare v (w.spendKey scope secret) := by
  -- the key had a handle as long as it was used
  have hkey := (h.addCell (.key none)).letGo
  have hcells : ((w.addCell ⟨.key none, 1⟩).letGo w.cells.size).cells =
      w.cells.push ⟨.key none, 0⟩ := by
    apply Array.ext_getElem?
    intro i
    rw [letGo_cells, addCell_cells, Array.getElem?_modify, Array.getElem?_push, Array.getElem?_push]
    by_cases hi : w.cells.size = i
    · subst hi
      simp only [if_true]
      rfl
    · rw [if_neg hi]
      simp only [if_neg (Ne.symm hi)]
  have hsize : ((w.addCell ⟨.key none, 1⟩).letGo w.cells.size).cells.size = w.cells.size + 1 := by
    rw [hcells, Array.size_push]
  have htracked : Grows known scope spare v
      (((w.addCell ⟨.key none, 1⟩).letGo w.cells.size).track scope [secret, w.cells.size]) := by
    apply hkey.track
    intro id hid
    rcases List.mem_cons.1 hid with rfl | hid
    · exact .inl hsecret
    · rw [List.mem_singleton.1 hid]
      exact .inr ⟨h.size_le, hsize ▸ Nat.lt_succ_self _⟩
  exact htracked.congr hcells.symm rfl

end Grows

end Vault

end FieldVault
