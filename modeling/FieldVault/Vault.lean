import FieldVault.Event
import FieldVault.Gcm
import FieldVault.Wipe.Item

/-!
# The vault

The vault holds guarded values and scopes. A guarded value is a text, a byte string or a key
with a count of the handles on it; it is wiped when its last handle goes. A scope tracks values
by identity without keeping them alive: flushing it wipes the tracked values that are still
alive and forgets them all, and so does giving up its last handle, with a report. The vault also
draws the nonces and keeps the reports.
-/

set_option autoImplicit false

namespace FieldVault

open Wipe

/-- The contents of a guarded value; a key is gone once it is destroyed. -/
inductive Contents where
  | text (value : String)
  | bytes (value : Bytes)
  | key (value : Option Bytes)
deriving DecidableEq

/-- What wiping leaves: an empty text, as many zero bytes, no key. -/
def Contents.wiped : Contents → Contents
  | .text _ => .text ""
  | .bytes value => .bytes (Bytes.zeros value.length)
  | .key _ => .key none

/-- A guarded value. -/
structure Cell where
  contents : Contents
  handles : Nat

/-- A set of tracked values, with the number of handles on it. -/
structure Scope where
  members : List ValueId
  handles : Nat

/-- The identity of a scope: its place among all scopes begun. -/
abbrev ScopeId := Nat

/-- The guarded values, the scopes, the nonces to come with the number drawn, and the reports so
far. -/
structure Vault where
  cells : Array Cell
  scopes : Array Scope
  nonces : Nat → Gcm.Nonce
  drawn : Nat
  events : List Event

/-- A computation on the vault. -/
abbrev VaultM := StateM Vault

/-- What a flush did: values that were alive and are now wiped, and values whose last handle had
gone before. -/
structure FlushReport where
  destroyed : Nat
  expired : Nat
deriving DecidableEq

namespace Vault

/-- A vault with nothing in it. -/
def empty (nonces : Nat → Gcm.Nonce) : Vault := ⟨#[], #[], nonces, 0, []⟩

/-! ### Guarded values -/

/-- The contents of a value. -/
def contents? (v : Vault) (id : ValueId) : Option Contents := (v.cells[id]?).map Cell.contents

/-- Whether a value has a handle. -/
def isAlive (v : Vault) (id : ValueId) : Bool :=
  match v.cells[id]? with
  | some cell => 0 < cell.handles
  | none => false

/-- The text of a value; empty for other values. -/
def text (v : Vault) (id : ValueId) : String :=
  match v.contents? id with
  | some (.text value) => value
  | _ => ""

/-- The bytes of a value; none for other values. -/
def bytes (v : Vault) (id : ValueId) : Bytes :=
  match v.contents? id with
  | some (.bytes value) => value
  | _ => []

/-- The key of a value, if it has one that is not destroyed. -/
def key? (v : Vault) (id : ValueId) : Option Bytes :=
  match v.contents? id with
  | some (.key value) => value
  | _ => none

/-- The cell with its contents wiped. -/
def wipeCell (cell : Cell) : Cell := { cell with contents := cell.contents.wiped }

/-- The vault with the contents of a value wiped. -/
def wipe (v : Vault) (id : ValueId) : Vault := { v with cells := v.cells.modify id wipeCell }

/-- The cell with one handle less; the last one takes the contents with it. -/
def releaseCell (cell : Cell) : Cell :=
  if cell.handles ≤ 1 then { wipeCell cell with handles := 0 }
  else { cell with handles := cell.handles - 1 }

/-- A new value with one handle. -/
def create (contents : Contents) : VaultM ValueId := fun v =>
  (v.cells.size, { v with cells := v.cells.push ⟨contents, 1⟩ })

/-- One more handle on a value. -/
def retain (id : ValueId) : VaultM Unit := modify fun v =>
  { v with cells := v.cells.modify id fun cell => { cell with handles := cell.handles + 1 } }

/-- One handle less on a value. -/
def release (id : ValueId) : VaultM Unit := modify fun v =>
  { v with cells := v.cells.modify id releaseCell }

/-- The contents of a value, wiped at once. -/
def destroy (id : ValueId) : VaultM Unit := modify fun v => v.wipe id

/-- A new text with the contents of another. -/
def duplicateText (id : ValueId) : VaultM ValueId := do create (.text ((← get).text id))

/-! ### Scopes -/

/-- The values a scope tracks. -/
def members (v : Vault) (scope : ScopeId) : List ValueId :=
  match v.scopes[scope]? with
  | some s => s.members
  | none => []

/-- The vault with the members of a scope replaced. -/
def setMembers (v : Vault) (scope : ScopeId) (members : List ValueId) : Vault :=
  { v with scopes := v.scopes.modify scope fun s => { s with members := members } }

/-- A new scope with one handle. -/
def beginScope : VaultM ScopeId := fun v =>
  (v.scopes.size, { v with scopes := v.scopes.push ⟨[], 1⟩ })

/-- One more handle on a scope. -/
def retainScope (scope : ScopeId) : VaultM Unit := modify fun v =>
  { v with scopes := v.scopes.modify scope fun s => { s with handles := s.handles + 1 } }

/-- A set with a list of values added. -/
def addMembers (members ids : List ValueId) : List ValueId :=
  ids.foldl (fun members id => members.insert id) members

/-- Track the values of an item; the number of those that were not tracked before. -/
def mark (scope : ScopeId) (item : Item ValueId) : VaultM Nat := fun v =>
  let before := v.members scope
  let after := addMembers before item.leaves
  -- adding never removes, so the difference counts the new ones
  (after.length - before.length, v.setMembers scope after)

/-- Track an untyped value if everything in it can be wiped. -/
def markUntyped (scope : ScopeId) (value : Untyped ValueId) : VaultM (Except Wipe.Fault Nat) := do
  match value.classify with
  | .error fault => return .error fault
  | .ok item => return .ok (← mark scope item)

/-- Track another item in place of a value; nothing happens if that is not tracked. -/
def replace (scope : ScopeId) (current replacement : Item ValueId) : VaultM Bool := fun v =>
  match current.single? with
  | none => (false, v)
  | some id =>
    let before := v.members scope
    if before.contains id then
      (true, v.setMembers scope (addMembers (before.erase id) replacement.leaves))
    else (false, v)

/-- Whether an item is a single value that is tracked. -/
def isTracked (v : Vault) (scope : ScopeId) (item : Item ValueId) : Bool :=
  match item.single? with
  | none => false
  | some id => (v.members scope).contains id

/-- The number of values a scope tracks, the expired ones included. -/
def trackedCount (v : Vault) (scope : ScopeId) : Nat := (v.members scope).length

/-- The vault with every living one of some values wiped. -/
def wipeLiving (v : Vault) (ids : List ValueId) : Vault :=
  ids.foldl (fun v id => if v.isAlive id then v.wipe id else v) v

/-- Wipe the tracked values that are alive and forget them all. -/
def flush (scope : ScopeId) : VaultM FlushReport := fun v =>
  let members := v.members scope
  -- aliveness is settled before the wiping, which keeps the handles as they are
  let destroyed := (members.filter v.isAlive).length
  (⟨destroyed, members.length - destroyed⟩, (v.setMembers scope []).wipeLiving members)

/-- The vault after the last handle of a scope has gone: what it still tracked is wiped, with a
report. -/
def dropScope (v : Vault) (scope : ScopeId) : Vault :=
  let members := v.members scope
  if members.isEmpty then v
  else
    let v := (v.setMembers scope []).wipeLiving members
    { v with events := v.events ++ [.scopeDropped members.length] }

/-- One handle less on a scope. -/
def releaseScope (scope : ScopeId) : VaultM Unit := modify fun v =>
  match v.scopes[scope]? with
  | none => v
  | some s =>
    let v := { v with
      scopes := v.scopes.modify scope fun s => { s with handles := s.handles - 1 } }
    if s.handles ≤ 1 then v.dropScope scope else v

/-! ### Nonces and reports -/

/-- The next nonce. -/
def drawNonce : VaultM Gcm.Nonce := fun v => (v.nonces v.drawn, { v with drawn := v.drawn + 1 })

/-- One more report. -/
def report (event : Event) : VaultM Unit := modify fun v =>
  { v with events := v.events ++ [event] }

end Vault

end FieldVault
