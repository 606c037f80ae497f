import FieldVault.Vault

/-!
# What the operations of the vault do

Every operation is a change of the vault that can be written down: values are put behind the ones
there are (`addCell`), a scope tracks more values (`track`), and a value loses a handle (`letGo`)
or is wiped and let go at once (`retire`). The run of each operation is stated in these words, so
that the run of a longer computation is a chain of them.
-/

set_option autoImplicit false

namespace FieldVault

open Wipe

/-! ### Runs of computations -/

section

variable {σ α β : Type}

/-- A computation and then another: the second runs on what the first leaves. -/
theorem run_bind (x : StateM σ α) (f : α → StateM σ β) (s : σ) :
    (x >>= f).run s = (f (x.run s).1).run (x.run s).2 := rfl

theorem run_pure (a : α) (s : σ) : (pure a : StateM σ α).run s = (a, s) := rfl

theorem run_modify (f : σ → σ) (s : σ) : (modify f : StateM σ PUnit).run s = (⟨⟩, f s) := rfl

theorem run_get (s : σ) : (get : StateM σ σ).run s = (s, s) := rfl

end

namespace Vault

/-! ### Changes of a vault -/

/-- The vault with one more value. -/
def addCell (v : Vault) (cell : Cell) : Vault := { v with cells := v.cells.push cell }

/-- The vault with more values tracked by a scope. -/
def track (v : Vault) (scope : ScopeId) (ids : List ValueId) : Vault :=
  v.setMembers scope (addMembers (v.members scope) ids)

/-- The vault with one handle less on a value. -/
def letGo (v : Vault) (id : ValueId) : Vault :=
  { v with cells := v.cells.modify id releaseCell }

/-- The vault with a value wiped and one handle less on it. -/
def retire (v : Vault) (id : ValueId) : Vault := (v.wipe id).letGo id

/-- The vault with one more report. -/
def addEvent (v : Vault) (event : Event) : Vault := { v with events := v.events ++ [event] }

/-- The vault after the draw of a nonce. -/
def afterDraw (v : Vault) : Vault := { v with drawn := v.drawn + 1 }

/-- The vault with one more value that a scope tracks. -/
def addTracked (v : Vault) (scope : ScopeId) (contents : Contents) : Vault :=
  (v.addCell ⟨contents, 1⟩).track scope [v.cells.size]

section

variable (v : Vault) (scope : ScopeId) (id : ValueId) (ids : List ValueId) (cell : Cell)

@[simp] theorem addCell_cells : (v.addCell cell).cells = v.cells.push cell := rfl
@[simp] theorem addCell_scopes : (v.addCell cell).scopes = v.scopes := rfl
@[simp] theorem addCell_events : (v.addCell cell).events = v.events := rfl
@[simp] theorem addCell_nonces : (v.addCell cell).nonces = v.nonces := rfl
@[simp] theorem addCell_drawn : (v.addCell cell).drawn = v.drawn := rfl

@[simp] theorem track_cells : (v.track scope ids).cells = v.cells := rfl
@[simp] theorem track_events : (v.track scope ids).events = v.events := rfl
@[simp] theorem track_nonces : (v.track scope ids).nonces = v.nonces := rfl
@[simp] theorem track_drawn : (v.track scope ids).drawn = v.drawn := rfl

@[simp] theorem letGo_cells : (v.letGo id).cells = v.cells.modify id releaseCell := rfl
@[simp] theorem letGo_scopes : (v.letGo id).scopes = v.scopes := rfl
@[simp] theorem letGo_events : (v.letGo id).events = v.events := rfl
@[simp] theorem letGo_nonces : (v.letGo id).nonces = v.nonces := rfl
@[simp] theorem letGo_drawn : (v.letGo id).drawn = v.drawn := rfl

@[simp] theorem addEvent_cells (e : Event) : (v.addEvent e).cells = v.cells := rfl
@[simp] theorem addEvent_scopes (e : Event) : (v.addEvent e).scopes = v.scopes := rfl
@[simp] theorem addEvent_events (e : Event) : (v.addEvent e).events = v.events ++ [e] := rfl

@[simp] theorem afterDraw_cells : v.afterDraw.cells = v.cells := rfl
@[simp] theorem afterDraw_scopes : v.afterDraw.scopes = v.scopes := rfl
@[simp] theorem afterDraw_events : v.afterDraw.events = v.events := rfl

end

/-! ### Members of scopes -/

/-- Setting the members of a scope leaves the number of scopes as it is. -/
@[simp]
theorem size_scopes_setMembers (v : Vault) (scope : ScopeId) (ids : List ValueId) :
    (v.setMembers scope ids).scopes.size = v.scopes.size := Array.size_modify

/-- The members set are the members found, if there is such a scope. -/
theorem members_setMembers_self (v : Vault) (scope : ScopeId) (ids : List ValueId) :
    (v.setMembers scope ids).members scope = if scope < v.scopes.size then ids else [] := by
  unfold members setMembers
  rw [Array.getElem?_modify, if_pos rfl]
  by_cases h : scope < v.scopes.size
  · rw [Array.getElem?_eq_getElem h, if_pos h]
    rfl
  · rw [Array.getElem?_eq_none (Nat.le_of_not_lt h), if_neg h]
    rfl

/-- Setting the members of a scope leaves every other scope as it is. -/
theorem scopes_setMembers_of_ne (v : Vault) {scope other : ScopeId} (h : other ≠ scope)
    (ids : List ValueId) : (v.setMembers scope ids).scopes[other]? = v.scopes[other]? := by
  simp [setMembers, Array.getElem?_modify, Ne.symm h]

/-- Setting the members of a scope twice is setting them to the second list. -/
theorem setMembers_setMembers (v : Vault) (scope : ScopeId) (first second : List ValueId) :
    (v.setMembers scope first).setMembers scope second = v.setMembers scope second := by
  have hscopes : ((v.setMembers scope first).setMembers scope second).scopes =
      (v.setMembers scope second).scopes := by
    -- place by place: the scope is changed twice, the others never
    apply Array.ext_getElem?
    intro i
    simp only [setMembers, Array.getElem?_modify]
    split
    · rw [Option.map_map]
      rfl
    · rfl
  exact congrArg (fun scopes => { v with scopes := scopes }) hscopes

/-- A scope that was never begun tracks nothing. -/
theorem members_of_size_le {v : Vault} {scope : ScopeId} (h : v.scopes.size ≤ scope) :
    v.members scope = [] := by
  simp [members, h]

/-- Setting the members of a scope that was never begun does nothing. -/
theorem setMembers_of_size_le {v : Vault} {scope : ScopeId} (h : v.scopes.size ≤ scope)
    (ids : List ValueId) : v.setMembers scope ids = v := by
  have hsame : v.scopes.modify scope (fun s => { s with members := ids }) = v.scopes := by
    apply Array.ext_getElem?
    intro i
    rw [Array.getElem?_modify]
    split
    · rename_i hi
      subst hi
      simp [h]
    · rfl
  rw [setMembers, hsame]

theorem addMembers_append (members first second : List ValueId) :
    addMembers members (first ++ second) = addMembers (addMembers members first) second :=
  List.foldl_append

/-- What a set holds after some values were added to it. -/
theorem mem_addMembers {members ids : List ValueId} {id : ValueId} :
    id ∈ addMembers members ids ↔ id ∈ members ∨ id ∈ ids := by
  induction ids generalizing members with
  | nil => simp [addMembers]
  | cons first rest ih =>
    have hstep : addMembers members (first :: rest) = addMembers (members.insert first) rest := rfl
    rw [hstep, ih, List.mem_insert_iff, List.mem_cons]
    constructor
    · rintro ((rfl | h) | h)
      · exact .inr (.inl rfl)
      · exact .inl h
      · exact .inr (.inr h)
    · rintro (h | rfl | h)
      · exact .inl (.inr h)
      · exact .inl (.inl rfl)
      · exact .inr h

/-- Tracking values in two goes is tracking all of them at once. -/
theorem track_track (v : Vault) (scope : ScopeId) (first second : List ValueId) :
    (v.track scope first).track scope second = v.track scope (first ++ second) := by
  by_cases h : scope < v.scopes.size
  · rw [track, track, track, members_setMembers_self, if_pos h, setMembers_setMembers,
      addMembers_append]
  · -- a scope that was never begun tracks nothing, in one go or in two
    have hsize : v.scopes.size ≤ scope := Nat.le_of_not_lt h
    simp only [track, setMembers_of_size_le hsize]

/-- Only the values given become tracked. -/
theorem mem_members_track {v : Vault} {scope : ScopeId} {ids : List ValueId} {id : ValueId}
    (h : id ∈ (v.track scope ids).members scope) : id ∈ v.members scope ∨ id ∈ ids := by
  rw [track, members_setMembers_self] at h
  split at h
  · exact mem_addMembers.1 h
  · cases h

theorem track_addCell (v : Vault) (scope : ScopeId) (ids : List ValueId) (cell : Cell) :
    (v.addCell cell).track scope ids = (v.track scope ids).addCell cell := rfl

/-! ### Contents of values -/

/-- The new value has the contents it is given. -/
@[simp]
theorem contents?_addCell_size (v : Vault) (cell : Cell) :
    (v.addCell cell).contents? v.cells.size = some cell.contents := by
  simp [contents?]

@[simp]
theorem contents?_track (v : Vault) (scope : ScopeId) (ids : List ValueId) (id : ValueId) :
    (v.track scope ids).contents? id = v.contents? id := rfl

@[simp]
theorem text_track (v : Vault) (scope : ScopeId) (ids : List ValueId) (id : ValueId) :
    (v.track scope ids).text id = v.text id := by
  rw [Vault.text, Vault.text, contents?_track]

/-- The new value of a scope has the contents it is given. -/
@[simp]
theorem contents?_addTracked_size (v : Vault) (scope : ScopeId) (contents : Contents) :
    (v.addTracked scope contents).contents? v.cells.size = some contents := by
  rw [addTracked, contents?_track, contents?_addCell_size]

@[simp]
theorem size_cells_addTracked (v : Vault) (scope : ScopeId) (contents : Contents) :
    (v.addTracked scope contents).cells.size = v.cells.size + 1 := by
  simp [addTracked]

/-- A handle given up on one value leaves the contents of the others. -/
theorem contents?_letGo_of_ne {v : Vault} {id other : ValueId} (h : other ≠ id) :
    (v.letGo id).contents? other = v.contents? other := by
  simp [contents?, Array.getElem?_modify, Ne.symm h]

/-- A value exists if it has contents. -/
theorem lt_of_contents?_eq_some {v : Vault} {id : ValueId} {contents : Contents}
    (h : v.contents? id = some contents) : id < v.cells.size := by
  unfold contents? at h
  rw [Option.map_eq_some_iff] at h
  obtain ⟨cell, hcell, -⟩ := h
  exact (Array.getElem?_eq_some_iff.1 hcell).1

theorem text_of_contents? {v : Vault} {id : ValueId} {text : String}
    (h : v.contents? id = some (.text text)) : v.text id = text := by
  rw [Vault.text, h]

theorem bytes_of_contents? {v : Vault} {id : ValueId} {bytes : Bytes}
    (h : v.contents? id = some (.bytes bytes)) : v.bytes id = bytes := by
  rw [Vault.bytes, h]

theorem key?_of_contents? {v : Vault} {id : ValueId} {key : Option Bytes}
    (h : v.contents? id = some (.key key)) : v.key? id = key := by
  rw [Vault.key?, h]

/-- The last value, wiped and let go. -/
theorem retire_addCell_size (v : Vault) (key : Option Bytes) :
    (v.addCell ⟨.key key, 1⟩).retire v.cells.size = v.addCell ⟨.key none, 0⟩ := by
  have hcells : ((v.cells.push ⟨.key key, 1⟩).modify v.cells.size wipeCell).modify v.cells.size
      releaseCell = v.cells.push ⟨.key none, 0⟩ := by
    -- only the last place is changed
    apply Array.ext_getElem?
    intro i
    simp only [Array.getElem?_modify, Array.getElem?_push]
    by_cases hi : v.cells.size = i
    · subst hi
      simp only [if_true]
      rfl
    · simp only [if_neg hi, if_neg (Ne.symm hi)]
  rw [addCell, addCell, retire, wipe, letGo, hcells]

/-! ### Runs of the operations -/

theorem mark_run (scope : ScopeId) (item : Item ValueId) (v : Vault) :
    (mark scope item).run v =
      ((addMembers (v.members scope) item.leaves).length - (v.members scope).length,
        v.track scope item.leaves) := rfl

theorem create_run (contents : Contents) (v : Vault) :
    (create contents).run v = (v.cells.size, v.addCell ⟨contents, 1⟩) := rfl

theorem destroy_run (id : ValueId) (v : Vault) : (destroy id).run v = ((), v.wipe id) := rfl

theorem release_run (id : ValueId) (v : Vault) : (release id).run v = ((), v.letGo id) := rfl

theorem drawNonce_run (v : Vault) : drawNonce.run v = (v.nonces v.drawn, v.afterDraw) := rfl

/-! ### Vaults that hold texts -/

/-- A vault that holds some texts, under the identities from 0 on, and one scope. -/
def ofTexts (texts : List String) : Vault :=
  ⟨(texts.map fun text => ⟨.text text, 1⟩).toArray, #[⟨[], 1⟩], fun _ => ⟨Bytes.zeros 12, rfl⟩, 0,
    []⟩

end Vault

end FieldVault
