import FieldVault.Vault

/-!
# The master secret

A holder keeps one secret, set once and never handed out: every reader gets a copy of its own,
tracked by the reader's scope, so that wiping a copy never touches the secret or another copy.
-/

set_option autoImplicit false

namespace FieldVault

open Wipe

/-- A holder of the master secret, empty until it is set. -/
structure MasterHolder where
  secret : Option ValueId

namespace MasterHolder

/-- Why a holder refused. -/
inductive Fault where
  | alreadySet
  | notSet
deriving DecidableEq

/-- The text of a fault. -/
def Fault.message : Fault → String
  | .alreadySet => "master secret is already set"
  | .notSet => "master secret is not set"

/-- A holder without a secret. -/
def empty : MasterHolder := ⟨none⟩

/-- The holder with its secret set; a second secret is refused. -/
def set (holder : MasterHolder) (secret : String) : VaultM (Except Fault MasterHolder) := do
  match holder.secret with
  | some _ => return .error .alreadySet
  | none => return .ok ⟨some (← Vault.create (.text secret))⟩

/-- A copy of the secret, tracked by a scope. -/
def copy (holder : MasterHolder) (scope : ScopeId) : VaultM (Except Fault ValueId) := do
  match holder.secret with
  | none => return .error .notSet
  | some secret =>
    let copy ← Vault.duplicateText secret
    let _ ← Vault.mark scope (.one copy)
    return .ok copy

/-- Whether a secret is held. -/
def isReady (holder : MasterHolder) : Bool := holder.secret.isSome

/-- That a secret is held; the answer is never no. -/
def isSet (holder : MasterHolder) : Except Fault Bool :=
  if holder.isReady then .ok true else .error .notSet

/-- The holder given up, with the handle on its secret. -/
def release (holder : MasterHolder) : VaultM Unit :=
  match holder.secret with
  | none => pure ()
  | some secret => Vault.release secret

/-- How a holder shows itself. -/
def describe (holder : MasterHolder) : String :=
  "MasterSecretHolder \x7b ready: " ++ toString holder.isReady ++ " \x7d"

end MasterHolder

end FieldVault
