import FieldVault.Proofs.Vault.Growth

/-!
# Contents of living values

A change of the vault keeps the contents of every value that is alive after it, apart from those it
wipes: `Keeps wiped v w` says so of the change from `v` to `w`, with `wiped` telling which values
are wiped. A handle given up takes contents along only if it is the last one, and then the value is
not alive any more.
-/

set_option autoImplicit false

namespace FieldVault.Vault

open Wipe

/-- The values that are alive in `w` were so in `v`, and have their contents from there, wiped or
not. -/
structure Keeps (wiped : ValueId → Prop) (v w : Vault) : Prop where
  size_le : v.cells.size ≤ w.cells.size
  alive : ∀ id, id < v.cells.size → 0 < w.handlesOn id → 0 < v.handlesOn id
  contents_of_wiped : ∀ id, id < v.cells.size → 0 < w.handlesOn id → wiped id →
    w.contents? id = (v.contents? id).map Contents.wiped
  contents_of_not_wiped : ∀ id, id < v.cells.size → 0 < w.handlesOn id → ¬ wiped id →
    w.contents? id = v.contents? id

variable {v w x : Vault} {wiped : ValueId → Prop}

/-- Nothing is wiped. -/
def untouched : ValueId → Prop := fun _ => False

theorem contents?_congr {id : ValueId} (h : w.cells[id]? = v.cells[id]?) :
    w.contents? id = v.contents? id := by
  rw [contents?, contents?, h]

namespace Keeps

/-- Which values are wiped may be said in another way. -/
theorem congr {others : ValueId → Prop} (h : Keeps wiped v w) (hiff : ∀ id, wiped id ↔ others id) :
    Keeps others v w :=
  ⟨h.size_le, h.alive,
    fun id hid hpos hwiped => h.contents_of_wiped id hid hpos ((hiff id).2 hwiped),
    fun id hid hpos hwiped => h.contents_of_not_wiped id hid hpos (mt (hiff id).1 hwiped)⟩

/-- A change that leaves the older values as they are wipes nothing. -/
theorem of_older (hsize : v.cells.size ≤ w.cells.size)
    (hsame : ∀ id, id < v.cells.size → w.cells[id]? = v.cells[id]?) : Keeps untouched v w := by
  refine ⟨hsize, fun id hid hpos => ?_, fun id _ _ hwiped => hwiped.elim, fun id hid _ _ => ?_⟩
  · rwa [← handlesOn_congr (hsame id hid)]
  · exact contents?_congr (hsame id hid)

theorem of_cells_eq (h : w.cells = v.cells) : Keeps untouched v w :=
  of_older (Nat.le_of_eq (by rw [h])) fun id _ => by rw [h]

/-- A change that wipes nothing, and then another. -/
theorem trans (first : Keeps untouched v w) (second : Keeps wiped w x) : Keeps wiped v x := by
  have hlt {id : ValueId} (hid : id < v.cells.size) : id < w.cells.size :=
    Nat.lt_of_lt_of_le hid first.size_le
  refine ⟨Nat.le_trans first.size_le second.size_le, fun id hid hpos => ?_,
    fun id hid hpos hwiped => ?_, fun id hid hpos hwiped => ?_⟩
  · exact first.alive id hid (second.alive id (hlt hid) hpos)
  · rw [second.contents_of_wiped id (hlt hid) hpos hwiped,
      first.contents_of_not_wiped id hid (second.alive id (hlt hid) hpos) fun h => h]
  · rw [second.contents_of_not_wiped id (hlt hid) hpos hwiped,
      first.contents_of_not_wiped id hid (second.alive id (hlt hid) hpos) fun h => h]

/-! ### The changes of a vault -/

/-- Work that only adds wipes nothing. -/
theorem of_grows {known spare : List ValueId} {scope : ScopeId}
    (h : Grows known scope spare v w) : Keeps untouched v w := of_older h.size_le h.older

/-- A handle more on a living value. -/
theorem retained {id : ValueId} (h : 0 < v.handlesOn id) : Keeps untouched v (v.retained id) := by
  refine ⟨Nat.le_of_eq Array.size_modify.symm, fun other _ hpos => ?_,
    fun other _ _ hwiped => hwiped.elim, fun other _ _ _ => contents?_retained v id other⟩
  rw [handlesOn_retained (lt_of_handlesOn_pos h)] at hpos
  by_cases heq : id = other
  · rwa [← heq]
  · rwa [if_neg heq, Nat.add_zero] at hpos

/-- A handle given up: if the value is still alive, it keeps its contents. -/
theorem letGo (v : Vault) (id : ValueId) : Keeps untouched v (v.letGo id) := by
  refine ⟨Nat.le_of_eq Array.size_modify.symm, fun other _ hpos => ?_,
    fun other _ _ hwiped => hwiped.elim, fun other _ hpos _ => ?_⟩
  · rw [handlesOn_letGo] at hpos
    omega
  · by_cases heq : other = id
    · subst heq
      rw [handlesOn_letGo, if_pos rfl, handlesOn] at hpos
      rw [contents?, contents?, letGo_cells, Array.getElem?_modify, if_pos rfl]
      cases hcell : v.cells[other]? with
      | none => rfl
      | some cell =>
        rw [hcell] at hpos
        have hmany : ¬ cell.handles ≤ 1 := by
          intro hle
          change 0 < cell.handles - 1 at hpos
          omega
        change some (releaseCell cell).contents = some cell.contents
        rw [releaseCell, if_neg hmany]
    · exact contents?_letGo_of_ne heq

/-- The living ones of some values are wiped. -/
theorem of_wiped {ids : ValueId → Prop} [DecidablePred ids] (hsize : v.cells.size = w.cells.size)
    (hcells : ∀ id, w.cells[id]? = (v.cells[id]?).map fun cell =>
      if ids id ∧ 0 < cell.handles then wipeCell cell else cell) : Keeps ids v w := by
  have hhandles (id : ValueId) : w.handlesOn id = v.handlesOn id :=
    handlesOn_eq_of_wiped (hcells id)
  refine ⟨Nat.le_of_eq hsize, fun id _ hpos => (hhandles id) ▸ hpos, fun id _ hpos hwiped => ?_,
    fun id _ _ hwiped => ?_⟩
  · rw [hhandles, handlesOn] at hpos
    rw [contents?, contents?, hcells]
    cases hcell : v.cells[id]? with
    | none => rfl
    | some cell =>
      rw [hcell] at hpos
      change some (if _ then wipeCell cell else cell).contents = some cell.contents.wiped
      rw [if_pos ⟨hwiped, hpos⟩]
      rfl
  · rw [contents?, contents?, hcells]
    cases v.cells[id]? with
    | none => rfl
    | some cell =>
      change some (if _ then wipeCell cell else cell).contents = some cell.contents
      rw [if_neg fun h => hwiped h.1]

/-- Flushing a scope wipes its members. -/
theorem flushed (v : Vault) (scope : ScopeId) :
    Keeps (· ∈ v.members scope) v (v.flushed scope) :=
  of_wiped (size_cells_flushed v scope).symm (getElem?_flushed v scope)

/-- A handle given up on a scope wipes its members if it is the last one. -/
theorem scopeReleased (v : Vault) (scope : ScopeId) :
    Keeps (fun id => v.handlesOnScope scope ≤ 1 ∧ id ∈ v.members scope) v
      (v.scopeReleased scope) :=
  of_wiped (size_cells_scopeReleased v scope).symm (getElem?_scopeReleased v scope)

/-- Destroying a value wipes it. -/
theorem wipe (v : Vault) (id : ValueId) : Keeps (· = id) v (v.wipe id) := by
  refine ⟨Nat.le_of_eq (size_cells_wipe id v).symm, fun other _ hpos => ?_,
    fun other _ _ hwiped => ?_, fun other _ _ hwiped => ?_⟩
  · rwa [handlesOn_wipe] at hpos
  · subst hwiped
    rw [contents?, contents?, Vault.wipe, Array.getElem?_modify, if_pos rfl]
    cases v.cells[other]? with
    | none => rfl
    | some cell => rfl
  · exact contents?_congr (cells_wipe_of_ne (Ne.symm hwiped) v)

end Keeps

end FieldVault.Vault
