import FieldVault.Proofs.Vault.Handles
import FieldVault.Session

/-!
# What the parts of a command come to

A command has an outcome: a reply, or none if it meets a name that nothing stands under, and the
session it leaves. The outcome of a command is put together from those of its parts
(`outcome_bind`). Searches for names leave the session as it is (`OnlyLooks`); what keeping a value,
a scope or a holder under a name does to the session is written down without a computation (`kept`,
`keptScope`, `keptHolder`).
-/

set_option autoImplicit false

namespace FieldVault.Session

open Wipe

variable {α β : Type}

/-- The session with another vault. -/
def withVault (s : Session) (v : Vault) : Session := { s with vault := v }

@[simp] theorem withVault_vault (s : Session) (v : Vault) : (s.withVault v).vault = v := rfl

@[simp] theorem withVault_holders (s : Session) (v : Vault) :
    (s.withVault v).holders = s.holders := rfl

@[simp] theorem withVault_withVault (s : Session) (v w : Vault) :
    (s.withVault v).withVault w = s.withVault w := rfl

/-! ### Outcomes -/

/-- What a computation gives, if it does not stop, and the session it leaves. -/
def outcome (x : SessionM α) (s : Session) : Option α × Session := x.run.run s

/-- A computation goes on unless it has stopped. -/
theorem outcome_bind (x : SessionM α) (f : α → SessionM β) (s : Session) :
    outcome (x >>= f) s =
      match outcome x s with
      | (some a, t) => outcome (f a) t
      | (none, t) => (none, t) := by
  have hrun : outcome (x >>= f) s = (outcome x s).1.elim (none, (outcome x s).2)
      fun a => outcome (f a) (outcome x s).2 := by
    simp only [outcome, OptionT.run_bind, Option.elimM, run_bind]
    cases (x.run.run s).1 with
    | none => rfl
    | some a => rfl
  rw [hrun]
  obtain ⟨a | _, t⟩ := outcome x s
  · rfl
  · rfl

theorem outcome_get (s : Session) : outcome get s = (some s, s) := rfl

theorem outcome_modify (f : Session → Session) (s : Session) :
    outcome (modify f) s = (some ⟨⟩, f s) := rfl

/-- Work on the vault cannot stop and leaves the names alone. -/
theorem outcome_onVault (work : VaultM α) (s : Session) :
    outcome (onVault work) s = (some (work.run s.vault).1, s.withVault (work.run s.vault).2) := rfl

/-- The reply to a command and the session after it, from its outcome. -/
theorem step_eq (command : Command) (s : Session) :
    step command s = match outcome (execute command) s with
      | (some reply, t) => (reply, t)
      | (none, _) => (.unknownName, s) := rfl

/-! ### Searches -/

theorem outcome_find (name : String) (entries : List (String × α)) (s : Session) :
    outcome (find name entries) s = (entries.lookup name, s) := by
  rw [find]
  cases entries.lookup name with
  | none => rfl
  | some value => rfl

theorem outcome_handle (name : String) (s : Session) :
    outcome (handle name) s = (s.handles.lookup name, s) := by
  rw [handle, outcome_bind, outcome_get]
  exact outcome_find name s.handles s

theorem outcome_scope (name : String) (s : Session) :
    outcome (scope name) s = (s.scopes.lookup name, s) := by
  rw [scope, outcome_bind, outcome_get]
  exact outcome_find name s.scopes s

theorem outcome_holder (name : String) (s : Session) :
    outcome (holder name) s = (s.holders.lookup name, s) := by
  rw [holder, outcome_bind, outcome_get]
  exact outcome_find name s.holders s

theorem outcome_item (names : Item String) (s : Session) :
    outcome (item names) s = (names.resolve? fun name => s.handles.lookup name, s) := by
  rw [item, outcome_bind, outcome_get]
  dsimp only
  cases names.resolve? fun name => s.handles.lookup name with
  | none => rfl
  | some item => rfl

theorem outcome_untyped (names : Untyped String) (s : Session) :
    outcome (untyped names) s = (names.resolve? fun name => s.handles.lookup name, s) := by
  rw [untyped, outcome_bind, outcome_get]
  dsimp only
  cases names.resolve? fun name => s.handles.lookup name with
  | none => rfl
  | some value => rfl

/-! ### Computations that only look -/

/-- A computation only looks if it leaves every session as it is. -/
def OnlyLooks (x : SessionM α) : Prop := ∀ s, (outcome x s).2 = s

theorem OnlyLooks.outcome_eq {x : SessionM α} (h : OnlyLooks x) (s : Session) :
    outcome x s = ((outcome x s).1, s) := Prod.ext rfl (h s)

theorem onlyLooks_bind {x : SessionM α} {f : α → SessionM β} (hx : OnlyLooks x)
    (hf : ∀ a, OnlyLooks (f a)) : OnlyLooks (x >>= f) := by
  intro s
  rw [outcome_bind, hx.outcome_eq]
  cases (outcome x s).1 with
  | none => rfl
  | some a => exact hf a s

theorem onlyLooks_pure (a : α) : OnlyLooks (pure a) := fun _ => rfl

theorem onlyLooks_failure : OnlyLooks (failure : SessionM α) := fun _ => rfl

theorem onlyLooks_get : OnlyLooks get := fun _ => rfl

theorem onlyLooks_handle (name : String) : OnlyLooks (handle name) := fun s => by
  rw [outcome_handle]

theorem onlyLooks_scope (name : String) : OnlyLooks (scope name) := fun s => by
  rw [outcome_scope]

theorem onlyLooks_holder (name : String) : OnlyLooks (holder name) := fun s => by
  rw [outcome_holder]

theorem onlyLooks_item (names : Item String) : OnlyLooks (item names) := fun s => by
  rw [outcome_item]

/-- Reading the input of a cipher leaves the session as it is. -/
theorem onlyLooks_inputBytes (input : Input Bytes) : OnlyLooks (inputBytes input) := by
  cases input with
  | given value => exact onlyLooks_pure value
  | held name =>
    exact onlyLooks_bind (onlyLooks_handle name) fun _ =>
      onlyLooks_bind onlyLooks_get fun _ => onlyLooks_pure _

theorem onlyLooks_inputText (input : Input String) : OnlyLooks (inputText input) := by
  cases input with
  | given value => exact onlyLooks_pure value
  | held name =>
    refine onlyLooks_bind (onlyLooks_inputBytes (.held name)) fun bytes => ?_
    cases Bytes.toText? bytes with
    | none => exact onlyLooks_failure
    | some text => exact onlyLooks_pure text

/-! ### Keeping and letting go -/

/-- The session after a value was put under a name or let go. -/
def kept (s : Session) (target : Option String) (id : ValueId) : Session :=
  match target with
  | none => s.withVault (s.vault.letGo id)
  | some name =>
    { s with
      vault := (s.handles.lookup name).elim s.vault s.vault.letGo
      handles := setEntry name id s.handles }

/-- The session after a scope was put under a name. -/
def keptScope (s : Session) (name : String) (id : ScopeId) : Session :=
  { s with
    vault := (s.scopes.lookup name).elim s.vault s.vault.scopeReleased
    scopes := setEntry name id s.scopes }

/-- The session after a holder was put under a name. -/
def keptHolder (s : Session) (name : String) (holder : MasterHolder) : Session :=
  { s with
    vault := ((s.holders.lookup name).bind MasterHolder.secret).elim s.vault s.vault.letGo
    holders := setEntry name holder s.holders }

@[simp] theorem kept_scopes (s : Session) (target : Option String) (id : ValueId) :
    (s.kept target id).scopes = s.scopes := by
  cases target with
  | none => rfl
  | some name => rfl

@[simp] theorem kept_vault_scopes (s : Session) (target : Option String) (id : ValueId) :
    (s.kept target id).vault.scopes = s.vault.scopes := by
  cases target with
  | none => rfl
  | some name =>
    rw [kept]
    cases s.handles.lookup name with
    | none => rfl
    | some old => rfl

@[simp] theorem keptHolder_vault_scopes (s : Session) (name : String) (holder : MasterHolder) :
    (s.keptHolder name holder).vault.scopes = s.vault.scopes := by
  rw [keptHolder]
  cases (s.holders.lookup name).bind MasterHolder.secret with
  | none => rfl
  | some old => rfl

/-- A scope keeps its members as long as its last handle is not given up. -/
theorem members_keptScope {s : Session} {name : String} {scope : ScopeId}
    (h : s.scopes.lookup name = some scope → 1 < s.vault.handlesOnScope scope) (id : ScopeId) :
    (s.keptScope name id).vault.members scope = s.vault.members scope := by
  rw [keptScope]
  cases hold : s.scopes.lookup name with
  | none => rfl
  | some old =>
    change (s.vault.scopeReleased old).members scope = _
    rw [Vault.members_scopeReleased, if_neg]
    rintro ⟨hle, rfl⟩
    exact Nat.not_lt_of_le hle (h hold)

@[simp] theorem size_cells_kept (s : Session) (target : Option String) (id : ValueId) :
    (s.kept target id).vault.cells.size = s.vault.cells.size := by
  cases target with
  | none => exact Array.size_modify
  | some name =>
    rw [kept]
    cases s.handles.lookup name with
    | none => rfl
    | some old => exact Array.size_modify

@[simp] theorem size_cells_keptScope (s : Session) (name : String) (id : ScopeId) :
    (s.keptScope name id).vault.cells.size = s.vault.cells.size := by
  rw [keptScope]
  cases s.scopes.lookup name with
  | none => rfl
  | some old => exact Vault.size_cells_scopeReleased _ _

@[simp] theorem size_cells_keptHolder (s : Session) (name : String) (holder : MasterHolder) :
    (s.keptHolder name holder).vault.cells.size = s.vault.cells.size := by
  rw [keptHolder]
  cases (s.holders.lookup name).bind MasterHolder.secret with
  | none => rfl
  | some old => exact Array.size_modify

theorem outcome_keep (target : Option String) (id : ValueId) (s : Session) :
    outcome (keep target id) s = (some (), s.kept target id) := by
  cases target with
  | none => rfl
  | some name =>
    rw [keep, outcome_bind, outcome_get, kept]
    dsimp only
    rw [outcome_bind, outcome_modify]
    cases s.handles.lookup name with
    | none => rfl
    | some old => rfl

theorem outcome_keepScope (name : String) (id : ScopeId) (s : Session) :
    outcome (keepScope name id) s = (some (), s.keptScope name id) := by
  rw [keepScope, outcome_bind, outcome_get, keptScope]
  dsimp only
  rw [outcome_bind, outcome_modify]
  cases s.scopes.lookup name with
  | none => rfl
  | some old => rfl

theorem outcome_keepHolder (name : String) (holder : MasterHolder) (s : Session) :
    outcome (keepHolder name holder) s = (some (), s.keptHolder name holder) := by
  rw [keepHolder, outcome_bind, outcome_get, keptHolder]
  dsimp only
  rw [outcome_bind, outcome_modify]
  cases s.holders.lookup name with
  | none => rfl
  | some old =>
    obtain ⟨secret⟩ := old
    cases secret with
    | none => rfl
    | some id => rfl

/-- A value is shown with its contents and then kept. -/
theorem outcome_present {s : Session} {id : ValueId} {contents : Contents}
    (h : s.vault.contents? id = some contents) (target : Option String) :
    outcome (present target id) s = (some (.contents contents), s.kept target id) := by
  rw [present, outcome_bind, outcome_get]
  dsimp only
  rw [h]
  dsimp only
  rw [outcome_bind, outcome_keep]
  rfl

/-- Nothing is shown of what is not a value. -/
theorem outcome_present_none {s : Session} {id : ValueId} (h : s.vault.contents? id = none)
    (target : Option String) : outcome (present target id) s = (some .done, s) := by
  rw [present, outcome_bind, outcome_get]
  dsimp only
  rw [h]
  rfl

/-- A cipher is used in a scope and with a secret that stand under names. -/
theorem outcome_useCipher (call : Call)
    (use : FieldCipher → ScopeId → ValueId → String → VaultM α) (s : Session) :
    outcome (useCipher call use) s =
      match s.scopes.lookup call.scope, s.handles.lookup call.secret with
      | some scope, some secret =>
        let result := (use call.cipher scope secret call.context).run s.vault
        (some result.1, s.withVault result.2)
      | _, _ => (none, s) := by
  rw [useCipher, outcome_bind, outcome_scope]
  cases s.scopes.lookup call.scope with
  | none => rfl
  | some scope =>
    dsimp only
    rw [outcome_bind, outcome_handle]
    cases s.handles.lookup call.secret with
    | none => rfl
    | some secret => rfl

end FieldVault.Session
