import FieldVault.Vault

/-!
# The scope of a unit of work

Every unit of work runs with a scope of its own, which a guard flushes when the work ends. Work that
is completed has its guard finished, and the guard is disarmed before it goes; work that breaks off
or is abandoned has its guard dropped, which flushes on the spot. Either way the scope is flushed
exactly once. Work may hand the scope on: what is tracked after the flush is destroyed when the last
handle on the scope goes.
-/

set_option autoImplicit false

namespace FieldVault

/-- How a unit of work ends. -/
inductive Ending (α : Type) where
  | completed (answer : α)
  | panicked
  | cancelled

/-- A guard over the scope of a unit of work. It is armed as long as it holds a handle on the
scope. -/
structure FlushGuard where
  scope : Option ScopeId

namespace FlushGuard

/-- A guard armed with a handle of its own. -/
def arm (scope : ScopeId) : VaultM FlushGuard := do
  Vault.retainScope scope
  return ⟨some scope⟩

/-- Flush a scope and give up the handle on it. -/
def discharge (scope : ScopeId) : VaultM FlushReport := do
  let report ← Vault.flush scope
  Vault.releaseScope scope
  return report

/-- What happens when a guard goes: an armed one flushes its scope. The reports are those of the
flushes made. -/
def drop (guard : FlushGuard) : VaultM (List FlushReport) := do
  match guard.scope with
  | none => return []
  | some scope => return [← discharge scope]

/-- The orderly end of a guard: it is disarmed, its scope is flushed, and the guard goes. -/
def finish (guard : FlushGuard) : VaultM (List FlushReport) := do
  match guard.scope with
  | none => guard.drop
  | some scope =>
    let report ← discharge scope
    -- the handle was taken out of the guard, which has nothing left to flush
    let disarmed : FlushGuard := ⟨none⟩
    return report :: (← disarmed.drop)

/-- The end of a guard over work that has ended in some way. -/
def close {α : Type} (guard : FlushGuard) : Ending α → VaultM (List FlushReport)
  | .completed _ => guard.finish
  | .panicked => guard.drop
  | .cancelled => guard.drop

end FlushGuard

section

variable {m : Type → Type} [Monad m] [MonadLiftT VaultM m] {α : Type}

/-- Run work on a scope of its own, under a guard that is ended by `close`. The work owns one handle
on the scope and the guard another. -/
def guarded (close : FlushGuard → α → VaultM (List FlushReport)) (work : ScopeId → m α) :
    m (α × List FlushReport) := do
  let scope ← (Vault.beginScope : VaultM ScopeId)
  let guard ← (FlushGuard.arm scope : VaultM FlushGuard)
  let result ← work scope
  let reports ← (close guard result : VaultM (List FlushReport))
  return (result, reports)

/-- Run work that may break off or be abandoned. -/
def withScopeUntil (work : ScopeId → m (Ending α)) : m (Ending α × List FlushReport) :=
  guarded FlushGuard.close work

/-- Run work that is always completed and passes its handle on the scope on to nobody. -/
def withScope (work : ScopeId → m α) : m α := do
  let (answer, _) ← guarded (fun guard _ => guard.finish) fun scope => do
    let answer ← work scope
    -- the guard keeps a handle of its own, so giving up that of the work wipes nothing early
    (Vault.releaseScope scope : VaultM Unit)
    return answer
  return answer

end

end FieldVault
