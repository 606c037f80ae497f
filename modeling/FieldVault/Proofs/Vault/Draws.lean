import FieldVault.Proofs.Vault
import Mathlib.Data.List.ReduceOption

/-!
# What becomes of nonces

A log says what has become of the nonces that some work has drawn, in the order of the draws: an
envelope, or nothing if a nonce was used up for none. `Draws log v w` says that work with this log
has made the vault `w` of `v`: one nonce was drawn for each entry, and every envelope starts with
the nonce drawn for it. Logs are put one after the other (`Draws.trans`). The envelopes of a log
start with some of the nonces drawn, in the order of the draws (`Draws.sublist`), and with nonces
that do not repeat if the draws do not (`Draws.nodup`).
-/

set_option autoImplicit false

namespace FieldVault.Vault

/-- What has become of nonces, in the order of the draws: an envelope, or none. -/
abbrev DrawLog := List (Option Bytes)

/-- The envelopes of a log, in order. -/
def DrawLog.envelopes (log : DrawLog) : List Bytes := log.reduceOption

theorem DrawLog.envelopes_append (log more : DrawLog) :
    DrawLog.envelopes (log ++ more) = log.envelopes ++ more.envelopes :=
  List.reduceOption_append log more

/-- The nonce at the front of an envelope. -/
def leading (envelope : Bytes) : Bytes := envelope.take Gcm.nonceBytes

/-- The bytes of the nonces that are drawn next. -/
def nextNonces (v : Vault) (count : Nat) : List Bytes :=
  (List.range count).map fun k => (v.nonces (v.drawn + k)).bytes

/-- The vault `w` comes from `v` by work with the given log. -/
structure Draws (log : DrawLog) (v w : Vault) : Prop where
  /-- The nonces to come are not changed. -/
  nonces : w.nonces = v.nonces
  /-- One nonce was drawn for each entry. -/
  drawn : w.drawn = v.drawn + log.length
  /-- An envelope starts with the nonce drawn for it. -/
  starts : ∀ (k : Nat) (envelope : Bytes), log[k]? = some (some envelope) →
    leading envelope = (v.nonces (v.drawn + k)).bytes

namespace Draws

variable {log more : DrawLog} {u v w : Vault}

/-- Work that draws nothing. -/
theorem none_of_eq (hnonces : w.nonces = v.nonces) (hdrawn : w.drawn = v.drawn) : Draws [] v w :=
  ⟨hnonces, hdrawn, fun _ _ h => nomatch h⟩

theorem refl (v : Vault) : Draws [] v v := none_of_eq rfl rfl

/-- A nonce that was drawn, with what has become of it. -/
theorem one {entry : Option Bytes}
    (h : ∀ envelope, entry = some envelope → leading envelope = (v.nonces v.drawn).bytes) :
    Draws [entry] v v.afterDraw := by
  refine ⟨rfl, rfl, fun k envelope hk => ?_⟩
  cases k with
  | zero => exact h envelope (Option.some.inj hk)
  | succ k => cases hk

theorem trans (first : Draws log u v) (second : Draws more v w) : Draws (log ++ more) u w := by
  refine ⟨second.nonces.trans first.nonces, ?_, fun k envelope hk => ?_⟩
  · rw [second.drawn, first.drawn, List.length_append, Nat.add_assoc]
  · by_cases hlt : k < log.length
    · rw [List.getElem?_append_left hlt] at hk
      exact first.starts k envelope hk
    · -- the draws of the second log are counted from the end of the first one
      have hle : log.length ≤ k := Nat.le_of_not_lt hlt
      rw [List.getElem?_append_right hle] at hk
      have hstart := second.starts _ envelope hk
      rw [first.nonces, first.drawn, Nat.add_assoc, Nat.add_sub_of_le hle] at hstart
      exact hstart

/-- Work that draws nothing may come after. -/
theorem then_none (first : Draws log u v) (second : Draws [] v w) : Draws log u w := by
  have h := first.trans second
  rwa [List.append_nil] at h

/-! ### The envelopes of a log -/

theorem sublist_of_starts {next : Nat → Bytes}
    (h : ∀ k envelope, log[k]? = some (some envelope) → leading envelope = next k) :
    (log.envelopes.map leading).Sublist ((List.range log.length).map next) := by
  induction log generalizing next with
  | nil => exact List.Sublist.slnil
  | cons entry rest ih =>
    have hstarts : ∀ k envelope, rest[k]? = some (some envelope) →
        leading envelope = next (k + 1) := fun k envelope hk => h (k + 1) envelope hk
    have hrest := ih hstarts
    have hrange : (List.range (entry :: rest).length).map next =
        next 0 :: (List.range rest.length).map fun k => next (k + 1) := by
      rw [List.length_cons, List.range_succ_eq_map, List.map_cons, List.map_map]
      rfl
    rw [hrange]
    cases entry with
    | none => exact hrest.cons (next 0)
    | some envelope =>
      have hfirst := h 0 envelope rfl
      have henvelopes : DrawLog.envelopes (some envelope :: rest) =
          envelope :: DrawLog.envelopes rest := List.reduceOption_cons_of_some envelope rest
      rw [henvelopes, List.map_cons, hfirst]
      exact hrest.cons_cons (next 0)

/-- A log in which every nonce has gone into an envelope is the list of these. -/
theorem map_some_envelopes (h : ∀ entry ∈ log, entry.isSome) : log.envelopes.map some = log := by
  induction log with
  | nil => rfl
  | cons entry rest ih =>
    obtain ⟨hfirst, hrest⟩ := List.forall_mem_cons.1 h
    obtain ⟨envelope, rfl⟩ := Option.isSome_iff_exists.1 hfirst
    exact congrArg (some envelope :: ·) (ih hrest)

/-- The envelopes start with nonces that were drawn, in the order of the draws. -/
theorem sublist (h : Draws log v w) :
    (log.envelopes.map leading).Sublist (v.nextNonces log.length) :=
  sublist_of_starts h.starts

/-- If every nonce has gone into an envelope, the envelopes start with the nonces that were drawn,
each with its own. -/
theorem map_leading_eq (h : Draws log v w) (hall : ∀ entry ∈ log, entry.isSome) :
    log.envelopes.map leading = v.nextNonces log.envelopes.length := by
  have hlength : log.envelopes.length = log.length := List.reduceOption_length_eq_iff.2 hall
  rw [hlength]
  refine h.sublist.eq_of_length ?_
  rw [List.length_map, hlength, nextNonces, List.length_map, List.length_range]

/-- If no nonce was drawn twice, no two envelopes start with the same one. -/
theorem nodup (h : Draws log v w) (hdistinct : (v.nextNonces log.length).Nodup) :
    (log.envelopes.map leading).Nodup :=
  hdistinct.sublist h.sublist

end Draws

/-! ### Work that draws nothing -/

variable (v : Vault) (scope : ScopeId)

theorem draws_wipeLiving (ids : List Wipe.ValueId) : Draws [] v (v.wipeLiving ids) := by
  induction ids generalizing v with
  | nil => exact .refl v
  | cons id rest ih =>
    have hrest := ih (if v.isAlive id then v.wipe id else v)
    have hfirst : Draws [] v (if v.isAlive id then v.wipe id else v) := by
      split
      · exact .none_of_eq rfl rfl
      · exact .refl v
    exact hfirst.trans hrest

theorem draws_flush : Draws [] v ((flush scope).run v).2 := by
  have hmembers : Draws [] v (v.setMembers scope []) := .none_of_eq rfl rfl
  exact hmembers.trans (draws_wipeLiving _ _)

theorem draws_dropScope : Draws [] v (v.dropScope scope) := by
  rw [dropScope]
  split
  · exact .refl v
  · have hmembers : Draws [] v (v.setMembers scope []) := .none_of_eq rfl rfl
    exact (hmembers.trans (draws_wipeLiving _ _)).trans (.none_of_eq rfl rfl)

theorem draws_releaseScope : Draws [] v ((releaseScope scope).run v).2 := by
  rw [releaseScope, run_modify]
  dsimp only
  split
  · exact .refl v
  · have hless : Draws [] v { v with
        scopes := v.scopes.modify scope fun s => { s with handles := s.handles - 1 } } :=
      .none_of_eq rfl rfl
    split
    · exact hless.trans (draws_dropScope _ scope)
    · exact hless

end FieldVault.Vault
