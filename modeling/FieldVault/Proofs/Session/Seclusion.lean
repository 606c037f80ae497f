import FieldVault.Proofs.Session.Contents

/-!
# Secrets of holders are out of reach

A client gets at a value under a name or through a scope that tracks it (`Reaches`). A command lets
it reach nothing but what it could reach before and what is newly made (`reaches_turn`), and the
secret of a holder is under no name and in no scope when it is made. So no command that a client can
give ever reaches the secret of a holder (`secluded_run`), and no command changes what it holds
(`contents?_secret_step`).
-/

set_option autoImplicit false

namespace FieldVault.Session

open Wipe

variable {s t : Session} {command : Command} {id : ValueId}

/-- The client gets at a value: it stands under a name, or a scope tracks it. -/
def Reaches (s : Session) (id : ValueId) : Prop :=
  id ∈ s.handleIds ∨ ∃ scope, id ∈ s.vault.members scope

/-- The secrets of the holders. -/
def secrets (s : Session) : List ValueId := s.holders.filterMap fun entry => entry.2.secret

/-- No secret of a holder is reached. -/
def Secluded (s : Session) : Prop := ∀ id ∈ s.secrets, ¬ s.Reaches id

/-- What is reached was made. -/
theorem Accounts.lt_of_reaches (h : Accounts [] [] s) (hreach : s.Reaches id) :
    id < s.vault.cells.size := by
  rcases hreach with hhandle | ⟨scope, hmember⟩
  · exact h.lt_of_mem_held (List.mem_append_left _ hhandle)
  · exact h.made scope id hmember

/-! ### What a command lets the client reach -/

/-- The names stand for what they stood for and for the value kept. -/
theorem mem_handleIds_kept {target : Option String} {new : ValueId}
    (h : id ∈ (s.kept target new).handleIds) : id = new ∨ id ∈ s.handleIds := by
  cases target with
  | none => exact .inr h
  | some name =>
    rcases List.mem_cons.1 h with hnew | hold
    · exact .inl hnew
    · exact .inr ((List.filter_sublist.map _).subset hold)

/-- Names come to stand for new values only, apart from those that stand under names. -/
theorem handleIds_turn (hturn : Turn s command t) (h : id ∈ t.handleIds) :
    id ∈ s.handleIds ∨ s.vault.cells.size ≤ id := by
  cases hturn with
  | @made scope v made contents target _ _ hgrows _ _ =>
    rcases mem_handleIds_kept h with rfl | hold
    · exact .inr (hgrows.fresh id (List.mem_singleton_self id))
    · exact .inl hold
  | copied target _ hid =>
    rcases mem_handleIds_kept h with rfl | hold
    · exact .inl hid
    · exact .inl hold
  | dropped => exact .inl ((List.filter_sublist.map _).subset h)
  | _ => exact .inl h

/-- Giving up a handle on a scope lets no scope track more. -/
theorem members_elim_scopeReleased {v : Vault} (released : Option ScopeId) {scope : ScopeId}
    (h : id ∈ (released.elim v v.scopeReleased).members scope) : id ∈ v.members scope := by
  cases released with
  | none => exact h
  | some last =>
    rw [Option.elim_some, Vault.members_scopeReleased] at h
    split at h
    · cases h
    · exact h

/-- Work that only adds lets scopes track what is known or new. -/
theorem members_grows {known spare : List ValueId} {scope other : ScopeId} {v w : Vault}
    (hgrows : Vault.Grows known scope spare v w) (h : id ∈ w.members other) :
    id ∈ v.members other ∨ id ∈ known ∨ v.cells.size ≤ id := by
  by_cases heq : other = scope
  · subst heq
    exact hgrows.frame.members id h
  · rw [hgrows.members_of_ne heq] at h
    exact .inl h

/-- Scopes come to track only what stands under a name or is new. -/
theorem memberships_turn (hturn : Turn s command t) {scope : ScopeId}
    (h : id ∈ t.vault.members scope) :
    id ∈ s.vault.members scope ∨ id ∈ s.handleIds ∨ s.vault.cells.size ≤ id := by
  cases hturn with
  | worked _ _ hgrows => exact members_grows hgrows h
  | made target _ _ hgrows =>
    rw [Vault.members_congr (congrArg (·[scope]?) (kept_vault_scopes _ _ _))] at h
    exact members_grows hgrows h
  | copied target =>
    rw [Vault.members_congr (congrArg (·[scope]?) (kept_vault_scopes _ _ _))] at h
    exact .inl h
  | begun =>
    have hbefore := members_elim_scopeReleased _ h
    rw [withVault_vault, Vault.members_scopeBegun] at hbefore
    exact .inl hbefore
  | scopeCopied =>
    have hbefore := members_elim_scopeReleased _ h
    rw [withVault_vault, Vault.members_scopeRetained] at hbefore
    exact .inl hbefore
  | @scopeDropped _ last => exact .inl (members_elim_scopeReleased (some last) h)
  | @replaced other out ids _ _ hids =>
    by_cases heq : scope = other
    · rw [heq, withVault_vault, Vault.members_setMembers_self] at h
      split at h
      · rcases Vault.mem_addMembers.1 h with hold | hnew
        · exact .inl (heq ▸ List.mem_of_mem_erase hold)
        · exact .inr (.inl (hids id hnew))
      · cases h
    · rw [withVault_vault, Vault.members_congr (Vault.scopes_setMembers_of_ne _ heq _)] at h
      exact .inl h
  | flushed =>
    rw [withVault_vault, Vault.members_flushed] at h
    split at h
    · cases h
    · exact .inl h
  | holderMade =>
    rw [Vault.members_congr (congrArg (·[scope]?) (keptHolder_vault_scopes _ _ _))] at h
    exact .inl h
  | _ => exact .inl h

/-- What a client reaches after a command it reached before, or it is new. -/
theorem reaches_turn (hturn : Turn s command t) (h : t.Reaches id) :
    s.Reaches id ∨ s.vault.cells.size ≤ id := by
  rcases h with hhandle | ⟨scope, hmember⟩
  · exact (handleIds_turn hturn hhandle).imp_left .inl
  · rcases memberships_turn hturn hmember with hold | hhandle | hnew
    · exact .inl (.inr ⟨scope, hold⟩)
    · exact .inl (.inl hhandle)
    · exact .inr hnew

/-! ### Secrets -/

theorem mem_secrets_of_lookup {name : String} {holder : MasterHolder}
    (hname : s.holders.lookup name = some holder) (hsecret : holder.secret = some id) :
    id ∈ s.secrets := by
  obtain ⟨entry, hentry, heq⟩ := List.mem_map.1 (mem_map_snd_of_lookup hname)
  exact List.mem_filterMap.2 ⟨entry, hentry, by rw [heq, hsecret]⟩

/-- The secrets after a command were there before, or there is a new one that is not reached. -/
theorem secrets_turn (h : Accounts [] [] s) (hturn : Turn s command t) (hid : id ∈ t.secrets) :
    id ∈ s.secrets ∨ ¬ t.Reaches id := by
  have hfewer (name : String) : ∀ id ∈ (dropEntry name s.holders).filterMap
      (fun entry => entry.2.secret), id ∈ s.secrets :=
    fun id hid => (List.filter_sublist.filterMap _).subset hid
  cases hturn with
  | made target | copied target =>
    cases target with
    | none => exact .inl hid
    | some name => exact .inl hid
  | holderMade name => exact .inl (hfewer name id hid)
  | @masterSet name value holder =>
    rcases List.mem_cons.1 hid with rfl | hold
    · -- names and scopes are as before, when the secret was not made
      exact .inr fun hreach => Nat.lt_irrefl _ (h.lt_of_reaches (s := s) hreach)
    · exact .inl (hfewer name id hold)
  | _ => exact .inl hid

/-- A command leaves the secrets secluded. -/
theorem secluded_step (h : Accounts [] [] s) (hs : s.Secluded) (command : Command) :
    (step command s).2.Secluded := by
  have hturn := turn_step s command
  intro id hid hreach
  rcases secrets_turn h hturn hid with hold | hnew
  · rcases reaches_turn hturn hreach with hbefore | hmade
    · exact hs id hold hbefore
    · exact Nat.not_lt_of_le hmade (h.lt_of_mem_held (List.mem_append_right _ hold))
  · exact hnew hreach

/-- In every session that a run of commands leads to, the secrets of holders are out of reach. -/
theorem secluded_run (nonces : Nat → Gcm.Nonce) (commands : List Command) :
    (run commands (empty nonces)).Secluded := by
  induction commands using List.reverseRecOn with
  | nil =>
    intro id hid
    cases hid
  | append_singleton commands command ih =>
    rw [run_concat]
    exact secluded_step (accounts_run (accounts_empty nonces) commands) ih command

/-- A command that leaves a holder its secret leaves the secret its contents. -/
theorem contents?_secret_step (h : Accounts [] [] s) (hs : s.Secluded) (hid : id ∈ s.secrets)
    (hkept : id ∈ (step command s).2.secrets) :
    (step command s).2.vault.contents? id = s.vault.contents? id := by
  have hkeeps := keeps_turn h rfl (turn_step s command)
  have halive := (accounts_step h command).mem_held_iff.1 (List.mem_append_right _ hkept)
  refine hkeeps.contents_of_not_wiped id (h.lt_of_mem_held (List.mem_append_right _ hid)) halive ?_
  -- only what a scope tracks or stands under a name is wiped
  rintro (⟨scope, -, hmember⟩ | ⟨name, -, hname⟩)
  · exact hs id hid (.inr ⟨scope, hmember⟩)
  · exact hs id hid (.inl (mem_map_snd_of_lookup hname))

end FieldVault.Session
