import FieldVault.Proofs.Vault
import Mathlib.Data.List.Nodup

/-!
# Handles and members

A value is alive while it has handles, a scope while it has some. What each operation does to the
number of handles (`handlesOn`, `handlesOnScope`), to the contents of living values and to the
members of scopes is written down here, operation by operation. The end of a scope is the one
operation that combines them: the last handle takes the members with it, and those still alive are
wiped (`getElem?_scopeReleased`, `members_scopeReleased`).
-/

set_option autoImplicit false

namespace FieldVault

open Wipe

/-- Wiping twice is wiping once. -/
@[simp]
theorem Contents.wiped_wiped (contents : Contents) : contents.wiped.wiped = contents.wiped := by
  cases contents with
  | text value => rfl
  | bytes value =>
    have hlength : (Bytes.zeros value.length).length = value.length := List.length_replicate
    rw [wiped, wiped, hlength]
  | key value => rfl

namespace Vault

/-- The number of handles on a value. -/
def handlesOn (v : Vault) (id : ValueId) : Nat := ((v.cells[id]?).map Cell.handles).getD 0

/-- The number of handles on a scope. -/
def handlesOnScope (v : Vault) (scope : ScopeId) : Nat :=
  ((v.scopes[scope]?).map Scope.handles).getD 0

variable {v w : Vault} {scope other : ScopeId} {id : ValueId}

theorem members_eq (v : Vault) (scope : ScopeId) :
    v.members scope = ((v.scopes[scope]?).map Scope.members).getD [] := by
  rw [members]
  cases v.scopes[scope]? with
  | none => rfl
  | some s => rfl

/-- Vaults with the same cells have the same handles on values. -/
theorem handlesOn_congr (h : w.cells[id]? = v.cells[id]?) : w.handlesOn id = v.handlesOn id := by
  rw [handlesOn, handlesOn, h]

theorem isAlive_eq (v : Vault) (id : ValueId) : v.isAlive id = decide (0 < v.handlesOn id) := by
  rw [isAlive, handlesOn]
  cases v.cells[id]? with
  | none => rfl
  | some cell => rfl

/-- There are no handles on what is not a value yet. -/
theorem handlesOn_of_size_le (h : v.cells.size ≤ id) : v.handlesOn id = 0 := by
  rw [handlesOn, Array.getElem?_eq_none h]
  rfl

/-- A value with handles exists. -/
theorem lt_of_handlesOn_pos (h : 0 < v.handlesOn id) : id < v.cells.size := by
  by_contra hout
  rw [handlesOn_of_size_le (Nat.le_of_not_lt hout)] at h
  exact Nat.lt_irrefl 0 h

/-- A value with handles has contents. -/
theorem exists_contents?_of_handlesOn_pos (h : 0 < v.handlesOn id) :
    ∃ contents, v.contents? id = some contents := by
  rw [contents?, Array.getElem?_eq_getElem (lt_of_handlesOn_pos h)]
  exact ⟨_, rfl⟩

/-- A scope with handles was begun. -/
theorem lt_of_handlesOnScope_pos (h : 0 < v.handlesOnScope scope) : scope < v.scopes.size := by
  by_contra hout
  rw [handlesOnScope, Array.getElem?_eq_none (Nat.le_of_not_lt hout)] at h
  exact Nat.lt_irrefl 0 h

/-! ### Operations on values -/

/-- The vault with one handle more on a value. -/
def retained (v : Vault) (id : ValueId) : Vault :=
  { v with cells := v.cells.modify id fun cell => { cell with handles := cell.handles + 1 } }

theorem retain_run (id : ValueId) (v : Vault) : (retain id).run v = ((), v.retained id) := rfl

theorem handlesOn_addCell (v : Vault) (cell : Cell) (id : ValueId) :
    (v.addCell cell).handlesOn id = if id = v.cells.size then cell.handles else v.handlesOn id := by
  rw [handlesOn, handlesOn, addCell_cells, Array.getElem?_push]
  split
  · rfl
  · rfl

theorem handlesOn_letGo (v : Vault) (released id : ValueId) :
    (v.letGo released).handlesOn id = v.handlesOn id - if released = id then 1 else 0 := by
  rw [handlesOn, handlesOn, letGo_cells, Array.getElem?_modify]
  split
  · cases v.cells[id]? with
    | none => rfl
    | some cell =>
      -- with one handle or none the cell is wiped as well, with more it is not
      change (releaseCell cell).handles = cell.handles - 1
      unfold releaseCell
      split
      · exact (Nat.sub_eq_zero_of_le ‹_›).symm
      · rfl
  · rfl

theorem handlesOn_retained (h : id < v.cells.size) (asked : ValueId) :
    (v.retained id).handlesOn asked = v.handlesOn asked + if id = asked then 1 else 0 := by
  rw [handlesOn, handlesOn, retained, Array.getElem?_modify]
  split
  · rename_i heq
    rw [← heq, Array.getElem?_eq_getElem h]
    rfl
  · rfl

@[simp]
theorem contents?_retained (v : Vault) (id asked : ValueId) :
    (v.retained id).contents? asked = v.contents? asked := by
  rw [contents?, contents?, retained, Array.getElem?_modify]
  split
  · cases v.cells[asked]? with
    | none => rfl
    | some cell => rfl
  · rfl

/-- There is no handle to be had on what is not a value. -/
theorem retained_eq_self (h : v.contents? id = none) : v.retained id = v := by
  have hcells : v.cells.modify id (fun cell => { cell with handles := cell.handles + 1 }) =
      v.cells := by
    apply Array.ext_getElem?
    intro i
    rw [Array.getElem?_modify]
    split
    · rename_i heq
      rw [← heq, Option.map_eq_none_iff.1 h]
      rfl
    · rfl
  rw [retained, hcells]

theorem cells_wipe_of_ne {other : ValueId} (h : id ≠ other) (v : Vault) :
    (v.wipe id).cells[other]? = v.cells[other]? := by
  rw [wipe, Array.getElem?_modify, if_neg h]

@[simp] theorem size_cells_wipe (id : ValueId) (v : Vault) :
    (v.wipe id).cells.size = v.cells.size := Array.size_modify

@[simp]
theorem handlesOn_wipe (v : Vault) (wiped id : ValueId) :
    (v.wipe wiped).handlesOn id = v.handlesOn id := by
  rw [handlesOn, handlesOn, wipe, Array.getElem?_modify]
  split
  · cases v.cells[id]? with
    | none => rfl
    | some cell => rfl
  · rfl

@[simp]
theorem size_cells_wipeLiving (ids : List ValueId) (v : Vault) :
    (v.wipeLiving ids).cells.size = v.cells.size := by
  induction ids generalizing v with
  | nil => rfl
  | cons first rest ih =>
    rw [wipeLiving, List.foldl_cons]
    split
    · exact (ih (v.wipe first)).trans (size_cells_wipe first v)
    · exact ih v

@[simp]
theorem wipeLiving_scopes (ids : List ValueId) (v : Vault) :
    (v.wipeLiving ids).scopes = v.scopes := by
  induction ids generalizing v with
  | nil => rfl
  | cons first rest ih =>
    rw [wipeLiving, List.foldl_cons]
    split
    · exact ih (v.wipe first)
    · exact ih v

/-- Wiping the living ones of some values wipes the contents of exactly these. -/
theorem getElem?_wipeLiving (ids : List ValueId) (v : Vault) (id : ValueId) :
    (v.wipeLiving ids).cells[id]? = (v.cells[id]?).map fun cell =>
      if id ∈ ids ∧ 0 < cell.handles then wipeCell cell else cell := by
  induction ids generalizing v with
  | nil =>
    cases h : v.cells[id]? with
    | none => exact h
    | some cell => simp [wipeLiving, h]
  | cons first rest ih =>
    rw [wipeLiving, List.foldl_cons]
    change ((if v.isAlive first then v.wipe first else v).wipeLiving rest).cells[id]? = _
    rw [ih]
    by_cases hfirst : first = id
    · subst hfirst
      rw [isAlive_eq, handlesOn]
      cases hcell : v.cells[first]? with
      | none => simp [hcell]
      | some cell =>
        by_cases halive : 0 < cell.handles
        · -- a second wiping does nothing
          have htwice : wipeCell (wipeCell cell) = wipeCell cell := by
            simp only [wipeCell, Contents.wiped_wiped]
          have hhandles : (wipeCell cell).handles = cell.handles := rfl
          simp [wipe, Array.getElem?_modify, hcell, halive, htwice, hhandles]
        · simp [hcell, halive]
    · have hsame : (if v.isAlive first then v.wipe first else v).cells[id]? = v.cells[id]? := by
        split
        · exact cells_wipe_of_ne hfirst v
        · rfl
      have hmem : id ∈ first :: rest ↔ id ∈ rest := by
        rw [List.mem_cons]
        exact or_iff_right (Ne.symm hfirst)
      simp only [hsame, hmem]

/-- Wiping some cells takes no handles. -/
theorem handlesOn_eq_of_wiped {wiped : Cell → Prop} [DecidablePred wiped] {id : ValueId}
    (h : w.cells[id]? = (v.cells[id]?).map fun cell =>
      if wiped cell then wipeCell cell else cell) : w.handlesOn id = v.handlesOn id := by
  rw [handlesOn, handlesOn, h]
  cases v.cells[id]? with
  | none => rfl
  | some cell =>
    change (if wiped cell then wipeCell cell else cell).handles = cell.handles
    split
    · rfl
    · rfl

@[simp]
theorem handlesOn_wipeLiving (ids : List ValueId) (v : Vault) (id : ValueId) :
    (v.wipeLiving ids).handlesOn id = v.handlesOn id :=
  handlesOn_eq_of_wiped (getElem?_wipeLiving ids v id)

/-! ### Operations on scopes -/

/-- The vault with one handle more on a scope. -/
def scopeRetained (v : Vault) (scope : ScopeId) : Vault :=
  { v with scopes := v.scopes.modify scope fun s => { s with handles := s.handles + 1 } }

/-- The vault with one scope more. -/
def scopeBegun (v : Vault) : Vault := { v with scopes := v.scopes.push ⟨[], 1⟩ }

/-- The vault with one handle less on a scope. -/
def scopeReleased (v : Vault) (scope : ScopeId) : Vault := ((releaseScope scope).run v).2

/-- The vault after a scope was flushed. -/
def flushed (v : Vault) (scope : ScopeId) : Vault :=
  (v.setMembers scope []).wipeLiving (v.members scope)

theorem retainScope_run (scope : ScopeId) (v : Vault) :
    (retainScope scope).run v = ((), v.scopeRetained scope) := rfl

theorem beginScope_run (v : Vault) : beginScope.run v = (v.scopes.size, v.scopeBegun) := rfl

theorem releaseScope_run (scope : ScopeId) (v : Vault) :
    (releaseScope scope).run v = ((), v.scopeReleased scope) := rfl

theorem flush_run (scope : ScopeId) (v : Vault) :
    (flush scope).run v = (⟨((v.members scope).filter v.isAlive).length,
      (v.members scope).length - ((v.members scope).filter v.isAlive).length⟩,
      v.flushed scope) := rfl

theorem members_congr (h : w.scopes[scope]? = v.scopes[scope]?) :
    w.members scope = v.members scope := by
  rw [members, members, h]

theorem handlesOnScope_congr (h : w.scopes[scope]? = v.scopes[scope]?) :
    w.handlesOnScope scope = v.handlesOnScope scope := by
  rw [handlesOnScope, handlesOnScope, h]

/-- A scope that is made to track nothing does so, and the others go on. -/
theorem members_setMembers_nil (v : Vault) (scope asked : ScopeId) :
    (v.setMembers scope []).members asked = if scope = asked then [] else v.members asked := by
  split
  · rename_i heq
    rw [← heq, members_setMembers_self, ite_self]
  · exact members_congr (scopes_setMembers_of_ne v (Ne.symm ‹_›) _)

@[simp]
theorem handlesOnScope_setMembers (v : Vault) (scope asked : ScopeId) (ids : List ValueId) :
    (v.setMembers scope ids).handlesOnScope asked = v.handlesOnScope asked := by
  rw [handlesOnScope, handlesOnScope, setMembers, Array.getElem?_modify]
  split
  · cases v.scopes[asked]? with
    | none => rfl
    | some s => rfl
  · rfl

theorem handlesOnScope_scopeRetained (h : scope < v.scopes.size) (asked : ScopeId) :
    (v.scopeRetained scope).handlesOnScope asked =
      v.handlesOnScope asked + if scope = asked then 1 else 0 := by
  rw [handlesOnScope, handlesOnScope, scopeRetained, Array.getElem?_modify]
  split
  · rename_i heq
    rw [← heq, Array.getElem?_eq_getElem h]
    rfl
  · rfl

/-- A scope keeps its members when its handles are counted anew. -/
theorem members_modify_handles (v : Vault) (scope asked : ScopeId) (handles : Scope → Nat) :
    ({ v with scopes := v.scopes.modify scope fun s => { s with handles := handles s } } :
      Vault).members asked = v.members asked := by
  rw [members_eq, members_eq, Array.getElem?_modify]
  split
  · cases v.scopes[asked]? with
    | none => rfl
    | some s => rfl
  · rfl

@[simp]
theorem members_scopeRetained (v : Vault) (scope asked : ScopeId) :
    (v.scopeRetained scope).members asked = v.members asked :=
  members_modify_handles v scope asked fun s => s.handles + 1

/-- A scope that is begun has one handle, where there was none. -/
theorem handlesOnScope_scopeBegun (v : Vault) (asked : ScopeId) :
    v.scopeBegun.handlesOnScope asked =
      v.handlesOnScope asked + if v.scopes.size = asked then 1 else 0 := by
  rw [handlesOnScope, handlesOnScope, scopeBegun, Array.getElem?_push]
  by_cases heq : asked = v.scopes.size
  · rw [if_pos heq, if_pos heq.symm, heq, Array.getElem?_eq_none (Nat.le_refl _)]
    rfl
  · rw [if_neg heq, if_neg (Ne.symm heq)]
    rfl

@[simp]
theorem members_scopeBegun (v : Vault) (asked : ScopeId) :
    v.scopeBegun.members asked = v.members asked := by
  rw [members_eq, members_eq, scopeBegun, Array.getElem?_push]
  split
  · rename_i heq
    rw [heq, Array.getElem?_eq_none (Nat.le_refl _)]
    rfl
  · rfl

/-! ### Flushing a scope -/

/-- Flushing wipes the living values that the scope tracks. -/
theorem getElem?_flushed (v : Vault) (scope : ScopeId) (id : ValueId) :
    (v.flushed scope).cells[id]? = (v.cells[id]?).map fun cell =>
      if id ∈ v.members scope ∧ 0 < cell.handles then wipeCell cell else cell := by
  rw [flushed, getElem?_wipeLiving]
  rfl

@[simp]
theorem size_cells_flushed (v : Vault) (scope : ScopeId) :
    (v.flushed scope).cells.size = v.cells.size := size_cells_wipeLiving _ _

@[simp]
theorem handlesOn_flushed (v : Vault) (scope : ScopeId) (id : ValueId) :
    (v.flushed scope).handlesOn id = v.handlesOn id := handlesOn_wipeLiving _ _ _

@[simp]
theorem handlesOnScope_flushed (v : Vault) (scope asked : ScopeId) :
    (v.flushed scope).handlesOnScope asked = v.handlesOnScope asked := by
  rw [← handlesOnScope_setMembers v scope asked []]
  exact handlesOnScope_congr (congrArg (·[asked]?) (wipeLiving_scopes _ _))

/-- Flushing leaves a scope without members. -/
theorem members_flushed (v : Vault) (scope asked : ScopeId) :
    (v.flushed scope).members asked = if scope = asked then [] else v.members asked := by
  rw [← members_setMembers_nil]
  exact members_congr (congrArg (·[asked]?) (wipeLiving_scopes _ _))

/-! ### The last handle of a scope -/

/-- The end of a scope is a flush with a report, unless it tracks nothing. -/
theorem dropScope_eq (v : Vault) (scope : ScopeId) :
    v.dropScope scope = if (v.members scope).isEmpty then v else
      (v.flushed scope).addEvent (.scopeDropped (v.members scope).length) := rfl

/-- The end of a scope wipes the living values it tracks. -/
theorem getElem?_dropScope (v : Vault) (scope : ScopeId) (id : ValueId) :
    (v.dropScope scope).cells[id]? = (v.flushed scope).cells[id]? := by
  rw [dropScope_eq]
  split
  · rename_i hempty
    rw [flushed, List.isEmpty_iff.1 hempty]
    rfl
  · rfl

/-- The end of a scope leaves it without members. -/
theorem members_dropScope (v : Vault) (scope asked : ScopeId) :
    (v.dropScope scope).members asked = if scope = asked then [] else v.members asked := by
  rw [dropScope_eq]
  split
  · rename_i hempty
    split
    · rename_i heq
      rw [← heq, List.isEmpty_iff.1 hempty]
    · rfl
  · exact members_flushed v scope asked

@[simp]
theorem handlesOnScope_dropScope (v : Vault) (scope asked : ScopeId) :
    (v.dropScope scope).handlesOnScope asked = v.handlesOnScope asked := by
  rw [dropScope_eq]
  split
  · rfl
  · exact handlesOnScope_flushed v scope asked

@[simp]
theorem size_cells_dropScope (v : Vault) (scope : ScopeId) :
    (v.dropScope scope).cells.size = v.cells.size := by
  rw [dropScope_eq]
  split
  · rfl
  · exact size_cells_flushed v scope

/-- One handle less on a scope, without what the last one takes along. -/
def scopeLowered (v : Vault) (scope : ScopeId) : Vault :=
  { v with scopes := v.scopes.modify scope fun s => { s with handles := s.handles - 1 } }

@[simp] theorem scopeLowered_cells (v : Vault) (scope : ScopeId) :
    (v.scopeLowered scope).cells = v.cells := rfl

@[simp]
theorem members_scopeLowered (v : Vault) (scope asked : ScopeId) :
    (v.scopeLowered scope).members asked = v.members asked :=
  members_modify_handles v scope asked fun s => s.handles - 1

theorem handlesOnScope_scopeLowered (v : Vault) (scope asked : ScopeId) :
    (v.scopeLowered scope).handlesOnScope asked =
      v.handlesOnScope asked - if scope = asked then 1 else 0 := by
  rw [handlesOnScope, handlesOnScope, scopeLowered, Array.getElem?_modify]
  split
  · cases v.scopes[asked]? with
    | none => rfl
    | some s => rfl
  · rfl

/-- A handle given up on a scope: with the last one the scope ends. -/
theorem scopeReleased_eq (v : Vault) (scope : ScopeId) :
    v.scopeReleased scope = if v.handlesOnScope scope ≤ 1 then
      (v.scopeLowered scope).dropScope scope else v.scopeLowered scope := by
  rw [scopeReleased, releaseScope, run_modify, handlesOnScope]
  cases hscope : v.scopes[scope]? with
  | none =>
    -- a scope that was never begun has no handles and no members
    have hsize : v.scopes.size ≤ scope := Array.getElem?_eq_none_iff.1 hscope
    have hlowered : v.scopeLowered scope = v := by
      have hmodify : v.scopes.modify scope (fun s => { s with handles := s.handles - 1 }) =
          v.scopes := by
        apply Array.ext_getElem?
        intro i
        rw [Array.getElem?_modify]
        split
        · rename_i heq
          rw [← heq, hscope]
          rfl
        · rfl
      rw [scopeLowered, hmodify]
    rw [hlowered, dropScope, members_of_size_le hsize]
    rfl
  | some s => rfl

/-- A handle given up on a scope wipes living values only if it is the last one, and then those the
scope tracks. -/
theorem getElem?_scopeReleased (v : Vault) (scope : ScopeId) (id : ValueId) :
    (v.scopeReleased scope).cells[id]? = (v.cells[id]?).map fun cell =>
      if (v.handlesOnScope scope ≤ 1 ∧ id ∈ v.members scope) ∧ 0 < cell.handles then wipeCell cell
      else cell := by
  rw [scopeReleased_eq]
  split
  · rename_i hlast
    rw [getElem?_dropScope, getElem?_flushed, members_scopeLowered, scopeLowered_cells]
    simp only [hlast, true_and]
  · rename_i hlast
    simp only [hlast, false_and, if_false, scopeLowered_cells, Option.map_id']

@[simp]
theorem size_cells_scopeReleased (v : Vault) (scope : ScopeId) :
    (v.scopeReleased scope).cells.size = v.cells.size := by
  rw [scopeReleased_eq]
  split
  · exact size_cells_dropScope _ _
  · rfl

@[simp]
theorem handlesOn_scopeReleased (v : Vault) (scope : ScopeId) (id : ValueId) :
    (v.scopeReleased scope).handlesOn id = v.handlesOn id :=
  handlesOn_eq_of_wiped (getElem?_scopeReleased v scope id)

theorem handlesOnScope_scopeReleased (v : Vault) (scope asked : ScopeId) :
    (v.scopeReleased scope).handlesOnScope asked =
      v.handlesOnScope asked - if scope = asked then 1 else 0 := by
  rw [scopeReleased_eq, ← handlesOnScope_scopeLowered]
  split
  · exact handlesOnScope_dropScope _ _ _
  · rfl

/-- A handle given up on a scope takes the members along if it is the last one. -/
theorem members_scopeReleased (v : Vault) (scope asked : ScopeId) :
    (v.scopeReleased scope).members asked =
      if v.handlesOnScope scope ≤ 1 ∧ scope = asked then [] else v.members asked := by
  rw [scopeReleased_eq]
  by_cases hlast : v.handlesOnScope scope ≤ 1
  · rw [if_pos hlast, members_dropScope, members_scopeLowered]
    simp only [hlast, true_and]
  · rw [if_neg hlast, members_scopeLowered]
    simp only [hlast, false_and, if_false]

/-! ### Members without repetition -/

/-- Adding values to a set without repetition makes no repetition. -/
theorem nodup_addMembers {members : List ValueId} (h : members.Nodup) (ids : List ValueId) :
    (addMembers members ids).Nodup := by
  induction ids generalizing members with
  | nil => exact h
  | cons first rest ih => exact ih (h.insert)

end Vault

end FieldVault
