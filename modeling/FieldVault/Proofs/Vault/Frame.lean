import FieldVault.Proofs.Vault

/-!
# What a piece of work leaves alone

Work that only uses values of its own can be told apart by their identities: everything it creates
stands behind the values that were there when it began. `Frame base scope extra v w` says that the
vault `w` is what such work has made of `v`: values below `base` are as they were, no scope but
`scope` was touched, and that scope tracks nothing new except values from `base` on and those of
the list `extra`. Frames compose (`Frame.trans`), and each change of a vault is framed.
-/

set_option autoImplicit false

namespace FieldVault.Vault

open Wipe

/-- The vault `w` comes from `v` by work on values from `base` on, in one scope. -/
structure Frame (base : Nat) (scope : ScopeId) (extra : List ValueId) (v w : Vault) : Prop where
  /-- The values of the work stand behind `base`. -/
  size : base ≤ w.cells.size
  /-- Older values keep their contents and their handles. -/
  cells : ∀ id, id < base → w.cells[id]? = v.cells[id]?
  /-- Other scopes keep their members and their handles. -/
  scopes : ∀ other, other ≠ scope → w.scopes[other]? = v.scopes[other]?
  /-- What the scope tracks is older, listed, or a value of the work. -/
  members : ∀ id ∈ w.members scope, id ∈ v.members scope ∨ id ∈ extra ∨ base ≤ id

namespace Frame

variable {base : Nat} {scope : ScopeId} {extra : List ValueId} {v w x : Vault}

theorem refl (h : base ≤ v.cells.size) : Frame base scope extra v v :=
  ⟨h, fun _ _ => rfl, fun _ _ => rfl, fun _ hid => .inl hid⟩

theorem trans (first : Frame base scope extra v w) (second : Frame base scope extra w x) :
    Frame base scope extra v x := by
  refine ⟨second.size, fun id hid => ?_, fun other ho => ?_, fun id hid => ?_⟩
  · rw [second.cells id hid, first.cells id hid]
  · rw [second.scopes other ho, first.scopes other ho]
  · rcases second.members id hid with h | h
    · exact first.members id h
    · exact .inr h

/-- Work behind a later value is work behind an earlier one. -/
theorem mono {later : Nat} (h : Frame later scope extra v w) (hle : base ≤ later) :
    Frame base scope extra v w := by
  refine ⟨Nat.le_trans hle h.size, fun id hid => h.cells id (Nat.lt_of_lt_of_le hid hle),
    h.scopes, fun id hid => ?_⟩
  rcases h.members id hid with hold | hlisted | hnew
  · exact .inl hold
  · exact .inr (.inl hlisted)
  · exact .inr (.inr (Nat.le_trans hle hnew))

/-- Listed values that belong to the work need not be listed. -/
theorem of_le_extra (h : Frame base scope extra v w) (hextra : ∀ id ∈ extra, base ≤ id) :
    Frame base scope [] v w := by
  refine ⟨h.size, h.cells, h.scopes, fun id hid => ?_⟩
  rcases h.members id hid with hold | hlisted | hnew
  · exact .inl hold
  · exact .inr (.inr (hextra id hlisted))
  · exact .inr (.inr hnew)

/-- Work behind a later value with one listed value is work of its own, if the listed value belongs
to it. -/
theorem absorb {later : Nat} {id : ValueId} (h : Frame later scope [id] v w) (hle : base ≤ later)
    (hid : base ≤ id) : Frame base scope [] v w := by
  apply (h.mono hle).of_le_extra
  intro other hother
  rw [List.mem_singleton.1 hother]
  exact hid

/-- A scope that tracks values of the work alone tracks no others after the work. -/
theorem members_le (h : Frame base scope [] v w) (hmembers : ∀ id ∈ v.members scope, base ≤ id) :
    ∀ id ∈ w.members scope, base ≤ id := by
  intro id hid
  rcases h.members id hid with hold | hlisted | hnew
  · exact hmembers id hold
  · cases hlisted
  · exact hnew

/-- Older values keep their contents. -/
theorem contents? (h : Frame base scope extra v w) {id : ValueId} (hid : id < base) :
    w.contents? id = v.contents? id := by
  rw [Vault.contents?, Vault.contents?, h.cells id hid]

/-! ### The changes of a vault -/

theorem addCell (h : base ≤ v.cells.size) (cell : Cell) :
    Frame base scope extra v (v.addCell cell) := by
  refine ⟨?_, fun id hid => ?_, fun _ _ => rfl, fun _ hid => .inl hid⟩
  · rw [addCell_cells, Array.size_push]
    exact Nat.le_succ_of_le h
  · -- the new cell stands behind all older ones
    have hne : id ≠ v.cells.size := Nat.ne_of_lt (Nat.lt_of_lt_of_le hid h)
    rw [addCell_cells, Array.getElem?_push, if_neg hne]

theorem track (h : base ≤ v.cells.size) {ids : List ValueId}
    (hids : ∀ id ∈ ids, id ∈ extra ∨ base ≤ id) :
    Frame base scope extra v (v.track scope ids) := by
  refine ⟨h, fun _ _ => rfl, fun other ho => scopes_setMembers_of_ne v ho _, fun id hid => ?_⟩
  rcases mem_members_track hid with hold | hnew
  · exact .inl hold
  · exact .inr (hids id hnew)

theorem addTracked (h : base ≤ v.cells.size) (contents : Contents) :
    Frame base scope extra v (v.addTracked scope contents) := by
  refine (addCell h ⟨contents, 1⟩).trans (track ?_ fun id hid => ?_)
  · rw [addCell_cells, Array.size_push]
    exact Nat.le_succ_of_le h
  · rw [List.mem_singleton] at hid
    exact .inr (hid ▸ h)

theorem letGo (h : base ≤ v.cells.size) {id : ValueId} (hid : base ≤ id) :
    Frame base scope extra v (v.letGo id) := by
  refine ⟨?_, fun other ho => ?_, fun _ _ => rfl, fun _ hid => .inl hid⟩
  · rw [letGo_cells, Array.size_modify]
    exact h
  · have hne : id ≠ other := Nat.ne_of_gt (Nat.lt_of_lt_of_le ho hid)
    rw [letGo_cells, Array.getElem?_modify, if_neg hne]

theorem addEvent (h : base ≤ v.cells.size) (event : Event) :
    Frame base scope extra v (v.addEvent event) :=
  ⟨h, fun _ _ => rfl, fun _ _ => rfl, fun _ hid => .inl hid⟩

end Frame

end FieldVault.Vault
