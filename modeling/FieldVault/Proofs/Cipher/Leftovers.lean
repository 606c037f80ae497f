import FieldVault.Proofs.Vault.Contents

/-!
# What the calls of a cipher leave behind

A call of a cipher puts its new values behind the older ones, always in the same order: the key if
one was derived, the buffer if bytes were decrypted, and the value that is returned. All of them are
tracked, and so is the secret if there is a key; the key and the buffer have lost their contents and
their handles. `Leaves` says this for the changes that a call is made of, and is kept by each of
them. Everything that a client can ask the scope about afterwards follows from it (`Tidy`): how many
values more are tracked, and what a flush destroys and counts as expired (`Leaves.tidy`).
-/

set_option autoImplicit false

namespace FieldVault.Vault

open Wipe

/-! ### Values added to a set -/

section

variable {members ids : List ValueId} {p : ValueId → Bool}

/-- Values that are not in a set are put in front of it. -/
theorem addMembers_of_fresh (hnodup : ids.Nodup) (hfresh : ∀ id ∈ ids, id ∉ members) :
    addMembers members ids = ids.reverse ++ members := by
  induction ids generalizing members with
  | nil => rfl
  | cons first rest ih =>
    obtain ⟨hfirst, hrest⟩ := List.nodup_cons.1 hnodup
    have hstep : addMembers members (first :: rest) = addMembers (first :: members) rest :=
      congrArg (addMembers · rest) (List.insert_of_not_mem (hfresh first List.mem_cons_self))
    have hothers : ∀ id ∈ rest, id ∉ first :: members := by
      intro id hid
      rw [List.mem_cons, not_or]
      exact ⟨fun heq => hfirst (heq ▸ hid), hfresh id (List.mem_cons_of_mem _ hid)⟩
    rw [hstep, ih hrest hothers, List.reverse_cons, List.append_assoc]
    rfl

/-- Adding values that are not counted leaves the count as it is. -/
theorem countP_addMembers_of_none (h : ∀ id ∈ ids, p id = false) :
    (addMembers members ids).countP p = members.countP p := by
  induction ids generalizing members with
  | nil => rfl
  | cons first rest ih =>
    have hstep : addMembers members (first :: rest) = addMembers (members.insert first) rest := rfl
    rw [hstep, ih fun id hid => h id (List.mem_cons_of_mem _ hid), List.insert]
    split
    · rfl
    · exact List.countP_cons_of_neg (by rw [h first List.mem_cons_self]; exact Bool.false_ne_true)

end

/-! ### Flushing in numbers -/

/-- Whether a value has no handle. -/
def isGone (v : Vault) (id : ValueId) : Bool := decide (v.handlesOn id = 0)

/-- The number of tracked values whose last handle has gone. -/
def goneCount (v : Vault) (scope : ScopeId) : Nat := (v.members scope).countP v.isGone

/-- A flush tells the tracked values apart by whether they have a handle. -/
theorem flush_run_goneCount (scope : ScopeId) (v : Vault) :
    (flush scope).run v =
      (⟨v.trackedCount scope - v.goneCount scope, v.goneCount scope⟩, v.flushed scope) := by
  have hgone : ∀ id ∈ v.members scope, (decide ¬ v.isAlive id = true) = true ↔ v.isGone id := by
    intro id _
    rw [isAlive_eq, isGone, decide_eq_true_iff, decide_eq_true_iff, decide_eq_true_iff]
    omega
  have hsum : (v.members scope).length = ((v.members scope).filter v.isAlive).length +
      v.goneCount scope := by
    rw [← List.countP_eq_length_filter, goneCount, ← List.countP_congr hgone]
    exact List.length_eq_countP_add_countP v.isAlive
  rw [flush_run, trackedCount, hsum, Nat.add_sub_cancel, Nat.add_sub_cancel_left]

/-- A flush wipes a living value if that is tracked. -/
theorem contents?_flushed {v : Vault} {id : ValueId} (scope : ScopeId)
    (halive : 0 < v.handlesOn id) : ∃ contents, v.contents? id = some contents ∧
      (v.flushed scope).contents? id =
        some (if id ∈ v.members scope then contents.wiped else contents) := by
  obtain ⟨contents, hcontents⟩ := exists_contents?_of_handlesOn_pos halive
  have hlt := lt_of_handlesOn_pos halive
  have hkept : 0 < (v.flushed scope).handlesOn id := by rwa [handlesOn_flushed]
  refine ⟨contents, hcontents, ?_⟩
  split
  · rename_i hmember
    rw [(Keeps.flushed v scope).contents_of_wiped id hlt hkept hmember, hcontents]
    rfl
  · rename_i hother
    rw [(Keeps.flushed v scope).contents_of_not_wiped id hlt hkept hother, hcontents]

/-! ### The changes of a call -/

/-- The cells of new values: a spent key, buffers that were given up, and values with a handle. -/
def newCells (derived : Bool) (buffers returned : List Contents) : List Cell :=
  (if derived then [⟨.key none, 0⟩] else []) ++ buffers.map (⟨·, 0⟩) ++ returned.map (⟨·, 1⟩)

/-- The vault `after` is `v` with new values behind its own, all of them tracked by the scope; with
a key, the secret is tracked as well. -/
structure Leaves (scope : ScopeId) (secret : ValueId) (derived : Bool)
    (buffers returned : List Contents) (v after : Vault) : Prop where
  cells : after.cells.toList = v.cells.toList ++ newCells derived buffers returned
  scopes : after.scopes.size = v.scopes.size
  members : after.members scope = addMembers (v.members scope)
    ((if derived then [secret] else []) ++
      List.range' v.cells.size (newCells derived buffers returned).length)

@[simp]
theorem length_newCells (derived : Bool) (buffers returned : List Contents) :
    (newCells derived buffers returned).length =
      derived.toNat + buffers.length + returned.length := by
  cases derived with
  | false => simp [newCells]
  | true => simp only [newCells, List.length_append, List.length_map, if_true]; rfl

namespace Leaves

variable {scope : ScopeId} {secret : ValueId} {derived : Bool} {buffers returned : List Contents}
  {v after other : Vault}

theorem size (h : Leaves scope secret derived buffers returned v after) :
    after.cells.size = v.cells.size + (derived.toNat + buffers.length + returned.length) := by
  rw [← Array.length_toList, h.cells, List.length_append, Array.length_toList, length_newCells]

/-- A call that does nothing leaves nothing behind. -/
theorem refl (v : Vault) : Leaves scope secret false [] [] v v :=
  ⟨(List.append_nil _).symm, rfl, rfl⟩

/-- Whatever leaves the values and the scopes alone leaves nothing more behind. -/
theorem congr (h : Leaves scope secret derived buffers returned v after)
    (hcells : other.cells = after.cells) (hscopes : other.scopes = after.scopes) :
    Leaves scope secret derived buffers returned v other := by
  refine ⟨?_, ?_, ?_⟩
  · rw [hcells, h.cells]
  · rw [hscopes, h.scopes]
  · rw [members_congr (congrArg (·[scope]?) hscopes), h.members]

/-- A key that was derived is left behind. -/
theorem spendKey (hscope : scope < v.scopes.size) :
    Leaves scope secret true [] [] v (v.spendKey scope secret) := by
  refine ⟨?_, size_scopes_setMembers _ _ _, ?_⟩
  · exact Array.toList_push
  · change (v.track scope [secret, v.cells.size]).members scope = _
    rw [track, members_setMembers_self, if_pos hscope]
    rfl

/-- A new tracked value is left behind. -/
theorem addTracked (h : Leaves scope secret derived buffers returned v after)
    (hscope : scope < v.scopes.size) (contents : Contents) :
    Leaves scope secret derived buffers (returned ++ [contents]) v
      (after.addTracked scope contents) := by
  have hnew : newCells derived buffers (returned ++ [contents]) =
      newCells derived buffers returned ++ [⟨contents, 1⟩] := by
    rw [newCells, List.map_append, ← List.append_assoc]
    rfl
  refine ⟨?_, ?_, ?_⟩
  · rw [hnew, ← List.append_assoc, ← h.cells]
    exact Array.toList_push
  · rw [← h.scopes]
    exact size_scopes_setMembers _ _ _
  · have hsize : after.cells.size =
        v.cells.size + (newCells derived buffers returned).length := by
      rw [h.size, length_newCells]
    rw [hnew, List.length_append, List.length_singleton, List.range'_concat, ← List.append_assoc,
      addMembers_append, ← h.members, Nat.one_mul, ← hsize]
    change ((after.addCell ⟨contents, 1⟩).track scope [after.cells.size]).members scope = _
    rw [track, members_setMembers_self, if_pos]
    · rfl
    · exact h.scopes ▸ hscope

/-- Decrypted bytes that are given up are a buffer, without contents. -/
theorem letGo {bytes : Bytes}
    (h : Leaves scope secret derived buffers (.bytes bytes :: returned) v after) :
    Leaves scope secret derived (buffers ++ [(Contents.bytes bytes).wiped]) returned v
      (after.letGo (v.cells.size + (derived.toNat + buffers.length))) := by
  have hlength : (newCells derived (buffers ++ [(Contents.bytes bytes).wiped]) returned).length =
      (newCells derived buffers (.bytes bytes :: returned)).length := by
    simp only [length_newCells, List.length_append, List.length_cons, List.length_nil]
    omega
  refine ⟨?_, h.scopes, ?_⟩
  · have hplace : (v.cells.toList ++ newCells derived buffers []).length =
        v.cells.size + (derived.toNat + buffers.length) := by
      rw [List.length_append, length_newCells]
      rfl
    have hfront : newCells derived buffers (.bytes bytes :: returned) =
        newCells derived buffers [] ++ ⟨.bytes bytes, 1⟩ :: returned.map (⟨·, 1⟩) := by
      rw [newCells, newCells, List.map_nil, List.append_nil, List.map_cons]
    have hback : newCells derived (buffers ++ [(Contents.bytes bytes).wiped]) returned =
        newCells derived buffers [] ++ releaseCell ⟨.bytes bytes, 1⟩ :: returned.map (⟨·, 1⟩) := by
      rw [newCells, newCells, List.map_nil, List.append_nil, List.map_append, ← List.append_assoc,
        List.append_assoc]
      rfl
    rw [letGo_cells, Array.toList_modify, h.cells, hfront, hback, ← List.append_assoc, ← hplace,
      List.modify_eq_take_drop, List.take_left, List.drop_left, List.modifyHead_cons,
      List.append_assoc]
  · rw [hlength]
    exact h.members

/-! ### The new values -/

theorem getElem?_of_lt (h : Leaves scope secret derived buffers returned v after) {id : ValueId}
    (hid : id < v.cells.size) : after.cells[id]? = v.cells[id]? := by
  rw [← Array.getElem?_toList, h.cells, List.getElem?_append_left hid, Array.getElem?_toList]

theorem getElem?_add (h : Leaves scope secret derived buffers returned v after) (i : Nat) :
    after.cells[v.cells.size + i]? = (newCells derived buffers returned)[i]? := by
  have hsize : v.cells.toList.length = v.cells.size := Array.length_toList
  rw [← Array.getElem?_toList, h.cells, ← hsize, List.getElem?_append_right (Nat.le_add_right _ _),
    Nat.add_sub_cancel_left]

/-- The key comes first. -/
theorem getElem?_key (h : Leaves scope secret derived buffers returned v after) {id : ValueId}
    (hid : id ∈ List.range' v.cells.size derived.toNat) :
    after.cells[id]? = some ⟨.key none, 0⟩ := by
  obtain ⟨hle, hlt⟩ := List.mem_range'_1.1 hid
  cases derived with
  | false => exact absurd hlt (Nat.not_lt_of_le hle)
  | true =>
    obtain rfl : id = v.cells.size + 0 := Nat.le_antisymm (Nat.le_of_lt_succ hlt) hle
    rw [h.getElem?_add]
    rfl

/-- The buffers come next. -/
theorem exists_buffer (h : Leaves scope secret derived buffers returned v after) {id : ValueId}
    (hid : id ∈ List.range' (v.cells.size + derived.toNat) buffers.length) :
    ∃ contents ∈ buffers, after.cells[id]? = some ⟨contents, 0⟩ := by
  obtain ⟨hle, hlt⟩ := List.mem_range'_1.1 hid
  obtain ⟨j, rfl⟩ := Nat.exists_eq_add_of_le hle
  have hj : j < buffers.length := Nat.lt_of_add_lt_add_left hlt
  refine ⟨buffers[j], List.getElem_mem hj, ?_⟩
  have hkeys : (if derived then [(⟨.key none, 0⟩ : Cell)] else []).length = derived.toNat := by
    cases derived <;> rfl
  rw [Nat.add_assoc, h.getElem?_add, newCells, List.append_assoc, ← hkeys,
    List.getElem?_append_right (Nat.le_add_right _ _), Nat.add_sub_cancel_left,
    List.getElem?_append_left (by rwa [List.length_map]), List.getElem?_map,
    List.getElem?_eq_getElem hj]
  rfl

/-- What is returned comes last. -/
theorem exists_returned (h : Leaves scope secret derived buffers returned v after) {id : ValueId}
    (hid : id ∈ List.range' (v.cells.size + (derived.toNat + buffers.length)) returned.length) :
    ∃ contents ∈ returned, after.cells[id]? = some ⟨contents, 1⟩ := by
  obtain ⟨hle, hlt⟩ := List.mem_range'_1.1 hid
  obtain ⟨j, rfl⟩ := Nat.exists_eq_add_of_le hle
  have hj : j < returned.length := Nat.lt_of_add_lt_add_left hlt
  refine ⟨returned[j], List.getElem_mem hj, ?_⟩
  have hspent : (newCells derived buffers []).length = derived.toNat + buffers.length :=
    length_newCells derived buffers []
  rw [newCells, List.map_nil, List.append_nil] at hspent
  rw [Nat.add_assoc, h.getElem?_add, newCells, ← hspent,
    List.getElem?_append_right (Nat.le_add_right _ _), Nat.add_sub_cancel_left, List.getElem?_map,
    List.getElem?_eq_getElem hj]
  rfl

end Leaves

/-! ### What a client sees -/

/-- The number of values that are tracked anew with a value: none if it is tracked already. -/
def untracked (v : Vault) (scope : ScopeId) (id : ValueId) : Nat :=
  if id ∈ v.members scope then 0 else 1

/-- A call of a cipher can be made: the scope was begun and tracks values that exist, and the caller
has a handle on the secret. -/
structure Ready (scope : ScopeId) (secret : ValueId) (v : Vault) : Prop where
  begun : scope < v.scopes.size
  made : ∀ id ∈ v.members scope, id < v.cells.size
  alive : 0 < v.handlesOn secret

/-- The values that a call makes. -/
structure Made where
  keys : List ValueId
  buffers : List ValueId
  returned : List ValueId

namespace Made

/-- All of the values made. -/
def ids (made : Made) : List ValueId := made.keys ++ made.buffers ++ made.returned

end Made

/-- A call that has made some values has left the vault tidy: no key is left in it, and the scope
tracks `more` values than before. -/
structure Tidy (scope : ScopeId) (secret : ValueId) (more : Nat) (made : Made) (v after : Vault) :
    Prop where
  /-- These are the new values. -/
  new : ∀ id, id ∈ made.ids ↔ v.cells.size ≤ id ∧ id < after.cells.size
  older : ∀ id, id < v.cells.size → after.cells[id]? = v.cells[id]?
  /-- A new value that is a key is one of the keys made. -/
  keys : ∀ id key, v.cells.size ≤ id → after.contents? id = some (.key key) → id ∈ made.keys
  /-- A key is destroyed, and nothing has a handle on it. -/
  destroyed : ∀ id ∈ made.keys, after.contents? id = some (.key none) ∧ after.handlesOn id = 0
  buffers : ∀ id ∈ made.buffers, after.handlesOn id = 0
  returned : ∀ id ∈ made.returned, after.handlesOn id = 1
  tracked : ∀ id ∈ made.ids, id ∈ after.members scope
  /-- The secret of a key is tracked. -/
  tracksSecret : made.keys ≠ [] → secret ∈ after.members scope
  count : after.trackedCount scope = v.trackedCount scope + more
  /-- A flush counts the keys and the buffers as expired, and all other tracked values that it had
  not counted so before as destroyed. -/
  expired : ((flush scope).run after).1.expired =
    ((flush scope).run v).1.expired + (made.keys.length + made.buffers.length)
  total : ((flush scope).run after).1.destroyed + ((flush scope).run after).1.expired =
    after.trackedCount scope
  /-- A flush wipes the secret, if that is tracked, and what was returned. -/
  wiped : ∀ id, id = secret ∨ id ∈ made.returned → ∃ contents,
    after.contents? id = some contents ∧ ((flush scope).run after).2.contents? id =
      some (if id ∈ after.members scope then contents.wiped else contents)

namespace Leaves

variable {scope : ScopeId} {secret : ValueId} {derived : Bool} {buffers returned : List Contents}
  {v after : Vault}

/-- The values that are made, by their places. -/
def made (derived : Bool) (buffers returned : List Contents) (v : Vault) : Made where
  keys := List.range' v.cells.size derived.toNat
  buffers := List.range' (v.cells.size + derived.toNat) buffers.length
  returned := List.range' (v.cells.size + (derived.toNat + buffers.length)) returned.length

theorem ids_made (derived : Bool) (buffers returned : List Contents) (v : Vault) :
    (made derived buffers returned v).ids =
      List.range' v.cells.size (newCells derived buffers returned).length := by
  rw [length_newCells, ← List.range'_append_1, ← List.range'_append_1]
  rfl

/-- The values that are tracked when the key is derived: those before, and the secret. -/
theorem mem_before (hready : Ready scope secret v) {id : ValueId}
    (hid : id ∈ addMembers (v.members scope) (if derived then [secret] else [])) :
    id < v.cells.size := by
  rcases mem_addMembers.1 hid with hold | hsecret
  · exact hready.made id hold
  · cases derived with
    | false => cases hsecret
    | true =>
      rw [List.mem_singleton.1 hsecret]
      exact lt_of_handlesOn_pos hready.alive

/-- New values are not among those tracked before. -/
theorem fresh (hready : Ready scope secret v) {start count : Nat} (hstart : v.cells.size ≤ start) :
    ∀ id ∈ List.range' start count,
      id ∉ addMembers (v.members scope) (if derived then [secret] else []) := by
  intro id hid hbefore
  have hle := (List.mem_range'_1.1 hid).1
  exact absurd (mem_before hready hbefore) (Nat.not_lt_of_le (Nat.le_trans hstart hle))

/-- The number of values more that are tracked. -/
theorem count (h : Leaves scope secret derived buffers returned v after)
    (hready : Ready scope secret v) :
    after.trackedCount scope = v.trackedCount scope +
      ((if derived then v.untracked scope secret else 0) +
        (derived.toNat + buffers.length + returned.length)) := by
  have hbefore : (addMembers (v.members scope) (if derived then [secret] else [])).length =
      (v.members scope).length + if derived then v.untracked scope secret else 0 := by
    cases derived with
    | false => rfl
    | true => exact List.length_insert
  rw [trackedCount, h.members, addMembers_append,
    addMembers_of_fresh (List.nodup_range' 1) (fresh hready (Nat.le_refl _)), List.length_append,
    List.length_reverse, List.length_range', length_newCells, hbefore, Nat.add_comm, Nat.add_assoc]
  rfl

theorem handlesOn_of_lt (h : Leaves scope secret derived buffers returned v after) {id : ValueId}
    (hid : id < v.cells.size) : after.handlesOn id = v.handlesOn id :=
  handlesOn_congr (h.getElem?_of_lt hid)

/-- The secret is still alive. -/
theorem handlesOn_secret_pos (h : Leaves scope secret derived buffers returned v after)
    (hready : Ready scope secret v) : 0 < after.handlesOn secret := by
  rw [h.handlesOn_of_lt (lt_of_handlesOn_pos hready.alive)]
  exact hready.alive

/-- The key has no handle. -/
theorem handlesOn_key (h : Leaves scope secret derived buffers returned v after) {id : ValueId}
    (hid : id ∈ List.range' v.cells.size derived.toNat) : after.handlesOn id = 0 := by
  rw [handlesOn, h.getElem?_key hid]
  rfl

/-- The buffers have no handle. -/
theorem handlesOn_buffer (h : Leaves scope secret derived buffers returned v after) {id : ValueId}
    (hid : id ∈ List.range' (v.cells.size + derived.toNat) buffers.length) :
    after.handlesOn id = 0 := by
  obtain ⟨contents, -, hcell⟩ := h.exists_buffer hid
  rw [handlesOn, hcell]
  rfl

/-- What is returned has a handle. -/
theorem handlesOn_returned (h : Leaves scope secret derived buffers returned v after)
    {id : ValueId}
    (hid : id ∈ List.range' (v.cells.size + (derived.toNat + buffers.length)) returned.length) :
    after.handlesOn id = 1 := by
  obtain ⟨contents, -, hcell⟩ := h.exists_returned hid
  rw [handlesOn, hcell]
  rfl

/-- The number of values more that are tracked and have no handle. -/
theorem goneCount (h : Leaves scope secret derived buffers returned v after)
    (hready : Ready scope secret v) :
    after.goneCount scope = v.goneCount scope + (derived.toNat + buffers.length) := by
  have hspent : ∀ id ∈ (List.range' v.cells.size (derived.toNat + buffers.length)).reverse,
      after.isGone id = true := by
    intro id hid
    rw [List.mem_reverse, ← List.range'_append_1, List.mem_append] at hid
    exact decide_eq_true (hid.elim h.handlesOn_key h.handlesOn_buffer)
  have hreturned : ∀ id ∈ List.range' (v.cells.size + (derived.toNat + buffers.length))
      returned.length, after.isGone id = false := by
    intro id hid
    rw [isGone, h.handlesOn_returned hid]
    rfl
  have hsecret : ∀ id ∈ (if derived then [secret] else []), after.isGone id = false := by
    intro id hid
    cases derived with
    | false => cases hid
    | true =>
      rw [List.mem_singleton.1 hid, isGone]
      exact decide_eq_false (Nat.ne_of_gt (h.handlesOn_secret_pos hready))
  have hold : (v.members scope).countP after.isGone = v.goneCount scope := by
    refine List.countP_congr fun id hid => ?_
    rw [isGone, isGone, h.handlesOn_of_lt (hready.made id hid)]
  -- the secret and what is returned are alive, and the others are not
  rw [Vault.goneCount, h.members, length_newCells, ← List.range'_append_1, ← List.append_assoc,
    addMembers_append, countP_addMembers_of_none hreturned, addMembers_append,
    addMembers_of_fresh (List.nodup_range' 1) (fresh hready (Nat.le_refl _)), List.countP_append,
    List.countP_eq_length.2 hspent, List.length_reverse, List.length_range',
    countP_addMembers_of_none hsecret, hold, Nat.add_comm]

/-- If neither the buffers nor the values returned are keys, there is no key but the one derived. -/
theorem mem_keys (h : Leaves scope secret derived buffers returned v after)
    (hplain : ∀ contents ∈ buffers ++ returned, ∀ key, contents ≠ .key key) {id : ValueId}
    {key : Option Bytes} (hid : v.cells.size ≤ id) (hkey : after.contents? id = some (.key key)) :
    id ∈ (made derived buffers returned v).keys := by
  have hmem : id ∈ (made derived buffers returned v).ids := by
    rw [ids_made, List.mem_range'_1, length_newCells, ← h.size]
    exact ⟨hid, lt_of_contents?_eq_some hkey⟩
  rw [Made.ids, List.mem_append, List.mem_append] at hmem
  rcases hmem with (hmem | hmem) | hmem
  · exact hmem
  · obtain ⟨contents, hbuffer, hcell⟩ := h.exists_buffer hmem
    rw [contents?, hcell] at hkey
    exact absurd (Option.some.inj hkey) (hplain _ (List.mem_append_left _ hbuffer) key)
  · obtain ⟨contents, hreturned, hcell⟩ := h.exists_returned hmem
    rw [contents?, hcell] at hkey
    exact absurd (Option.some.inj hkey) (hplain _ (List.mem_append_right _ hreturned) key)

/-- What a call leaves behind is tidy. -/
theorem tidy (h : Leaves scope secret derived buffers returned v after)
    (hready : Ready scope secret v)
    (hplain : ∀ contents ∈ buffers ++ returned, ∀ key, contents ≠ .key key) {more : Nat}
    (hmore : more = (if derived then v.untracked scope secret else 0) +
      (derived.toNat + buffers.length + returned.length)) :
    Tidy scope secret more (made derived buffers returned v) v after := by
  have hids := ids_made derived buffers returned v
  have hflush := flush_run_goneCount scope after
  constructor
  case new =>
    intro id
    rw [hids, List.mem_range'_1, h.size, length_newCells]
  case older => exact fun id hid => h.getElem?_of_lt hid
  case keys => exact fun id key hid hkey => h.mem_keys hplain hid hkey
  case destroyed =>
    intro id hid
    refine ⟨?_, h.handlesOn_key hid⟩
    rw [contents?, h.getElem?_key hid]
    rfl
  case buffers => exact fun id hid => h.handlesOn_buffer hid
  case returned => exact fun id hid => h.handlesOn_returned hid
  case tracked =>
    intro id hid
    rw [hids] at hid
    rw [h.members]
    exact mem_addMembers.2 (.inr (List.mem_append_right _ hid))
  case tracksSecret =>
    intro hkeys
    cases derived with
    | false => exact absurd rfl hkeys
    | true =>
      rw [h.members]
      exact mem_addMembers.2 (.inr List.mem_cons_self)
  case count => rw [hmore, h.count hready]
  case expired =>
    rw [hflush, flush_run_goneCount]
    change after.goneCount scope = v.goneCount scope + _
    rw [h.goneCount hready, made, List.length_range', List.length_range']
  case total =>
    rw [hflush]
    exact Nat.sub_add_cancel List.countP_le_length
  case wiped =>
    intro id hid
    rw [hflush]
    refine contents?_flushed scope ?_
    rcases hid with rfl | hreturned
    · exact h.handlesOn_secret_pos hready
    · rw [h.handlesOn_returned hreturned]
      exact Nat.one_pos

end Leaves

end FieldVault.Vault
