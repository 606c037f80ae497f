import FieldVault.Proofs.Document.Draws
import FieldVault.Proofs.Service.Run

/-!
# What every handler passes through

Most handlers do two things only to the service: they let the resolver keep an answer, and they work
on the vault without drawing a nonce. A relation of services that is closed under such steps
(`Passage`) thus holds between the service before a handler and the service after it (`Along`),
however the handler ends. That is shown once for the handlers that decrypt, hash, look up or tell
whether the service is ready. Whether it means that no nonce is drawn or that no document is stored
is left to the relation.
-/

set_option autoImplicit false

namespace FieldVault.Service

open Document (Collection)
open Http (Request Response Route)
open Vault (Draws)
open Wipe (ValueId)

variable {α β : Type} {R : Service → Service → Prop}

/-- A relation that leads through whatever is neither a draw nor a document stored. -/
structure Passage (R : Service → Service → Prop) : Prop where
  refl : ∀ s, R s s
  trans : ∀ {s t u}, R s t → R t u → R s u
  /-- The resolver may keep an answer. -/
  resolved : ∀ s entity, R s { s with resolver := (s.resolver.resolve entity).2 }
  /-- There may be work on the vault that draws no nonce. -/
  undrawn : ∀ s {v}, Draws [] s.vault v → R s (s.withVault v)

/-- However a handler ends, it leads along a relation. -/
def Along (R : Service → Service → Prop) (x : Handler α) : Prop := ∀ s, R s (outcome x s).2

/-- Nothing is encrypted and nothing is stored for a route. -/
def passesOnly : Route → Bool
  | .encrypt => false
  | .store _ => false
  | .decrypt => true
  | .hash => true
  | .fetch _ _ => true
  | .health => true

namespace Passage

variable (hR : Passage R)

include hR

/-! ### Parts of handlers -/

theorem along_pure (a : α) : Along R (pure a) := hR.refl

theorem along_throw (fault : ServiceFault) : Along R (throw fault : Handler α) := hR.refl

theorem along_get : Along R get := hR.refl

theorem along_bind {x : Handler α} {f : α → Handler β} (hx : Along R x) (hf : ∀ a, Along R (f a)) :
    Along R (x >>= f) := by
  intro s
  have hfirst := hx s
  rw [outcome_bind]
  generalize outcome x s = result at hfirst ⊢
  obtain ⟨fault | a, t⟩ := result
  · exact hfirst
  · exact hR.trans hfirst (hf a t)

theorem along_vault {work : VaultM α} (h : ∀ v, Draws [] v (work.run v).2) :
    Along R (liftM work) := fun s => hR.undrawn s (h s.vault)

theorem along_release (id : ValueId) : Along R (liftM (release id)) :=
  fun s => hR.undrawn s (.none_of_eq rfl rfl)

theorem along_requireContext (context : String) : Along R (requireContext context) := by
  rw [requireContext]
  split
  · exact hR.along_throw _
  · exact hR.along_pure _

theorem along_repository (entity : String) : Along R (repository entity) := by
  intro s
  rw [outcome_repository]
  dsimp only
  split
  · exact hR.resolved s entity
  · split <;> exact hR.resolved s entity

theorem along_masterSecret (scope : ScopeId) : Along R (masterSecret scope) := by
  intro s
  cases hsecret : s.master.secret with
  | none =>
    rw [outcome_masterSecret_none scope hsecret]
    exact hR.refl s
  | some id =>
    rw [outcome_masterSecret_some scope hsecret]
    exact hR.undrawn s (.none_of_eq rfl rfl)

/-! ### Handlers -/

section Handlers

variable (scope : ScopeId)

theorem along_decrypt (message : DecryptRequest) : Along R (decrypt scope message) := by
  refine hR.along_bind (hR.along_requireContext _) fun _ => ?_
  refine hR.along_bind (hR.along_masterSecret scope) fun secret => ?_
  refine hR.along_bind (hR.along_vault fun v => cipher.draws_decryptText scope secret _ v _)
    fun plaintext => ?_
  refine hR.along_bind hR.along_get fun _ => ?_
  refine hR.along_bind (hR.along_release plaintext) fun _ => ?_
  exact hR.along_bind (hR.along_release secret) fun _ => hR.along_pure _

theorem along_hash (body : Bytes) : Along R (hash body) :=
  hR.along_bind hR.along_get fun _ => hR.along_pure _

theorem along_health : Along R health := hR.along_bind hR.along_get fun _ => hR.along_pure _

theorem along_openStored (c : Collection) (id : Uuid) (document : Json) :
    Along R (openStored scope c id document) := by
  refine hR.along_bind (hR.along_masterSecret scope) fun secret => ?_
  refine hR.along_bind
    (hR.along_vault fun v => c.draws_openDocument cipher scope secret document v) fun _ => ?_
  exact hR.along_bind (hR.along_release secret) fun _ => hR.along_pure _

theorem along_fetch (entity given : String) : Along R (fetch scope entity given) := by
  rw [fetch_eq]
  split
  · exact hR.along_throw _
  · refine hR.along_bind (hR.along_repository entity) fun found => ?_
    dsimp only
    split
    · exact hR.along_throw _
    · refine hR.along_bind hR.along_get fun _ => ?_
      split
      · exact hR.along_openStored scope _ _ _
      · exact hR.along_bind (hR.along_vault fun _ => .none_of_eq rfl rfl)
          fun _ => hR.along_throw _

end Handlers

/-! ### Answers -/

variable {request : Request} {scope : ScopeId} {route : Route}

/-- What cannot be read changes nothing, and the rest is left to the handler. -/
theorem answered {read : Except Response α} {handler : α → Handler Response}
    (h : ∀ input, Along R (handler input)) (s : Service) :
    R s ((answer read handler).run s).2 := by
  cases read with
  | error response => exact hR.refl s
  | ok input =>
    have halong := h input s
    rw [answer_ok]
    generalize outcome (handler input) s = result at halong ⊢
    obtain ⟨fault | response, t⟩ := result
    · exact halong
    · exact halong

theorem dispatched (h : passesOnly route) (s : Service) :
    R s ((dispatch scope request route).run s).2 := by
  cases route with
  | encrypt => cases h
  | store part => cases h
  | decrypt =>
    rw [dispatch]
    exact hR.answered (hR.along_decrypt scope) s
  | hash =>
    rw [dispatch]
    exact hR.answered hR.along_hash s
  | fetch part id =>
    rw [dispatch]
    apply hR.answered
    rintro ⟨entity, given⟩
    exact hR.along_fetch scope entity given
  | health =>
    rw [dispatch]
    exact hR.answered (fun _ => hR.along_health) s

end Passage

end FieldVault.Service
