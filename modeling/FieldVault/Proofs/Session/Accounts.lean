import FieldVault.Proofs.Session.Step
import Mathlib.Data.List.Perm.Basic

/-!
# Handles are accounted for

In every session that a run of commands leads to, the handles on a value are exactly those that the
client keeps under names, with the one that a holder has on its secret, and the handles on a scope
are exactly the names it stands under (`accounts_run`). So a value or a scope is alive as long as
the client has it, and no longer. While a command is at work some handles are out of hand;
`Accounts` counts them separately, and each part of a command places or gives up one of them.
-/

set_option autoImplicit false

namespace FieldVault.Session

open Wipe

/-! ### Entries under names -/

section Entries

variable {α : Type} {name : String} {value : α} {entries : List (String × α)}

/-- The entries are the one under a name, if there is one, and the others. -/
theorem perm_dropEntry (hnames : (entries.map Prod.fst).Nodup) (name : String) :
    entries.Perm ((entries.lookup name).toList.map (name, ·) ++ dropEntry name entries) := by
  induction entries with
  | nil => exact List.Perm.refl _
  | cons entry rest ih =>
    obtain ⟨under, value⟩ := entry
    rw [List.map_cons, List.nodup_cons] at hnames
    by_cases heq : name = under
    · subst heq
      -- the name does not occur again
      have hrest : dropEntry name rest = rest := by
        rw [dropEntry, List.filter_eq_self]
        intro other hother
        have hne : other.1 ≠ name := by
          rintro rfl
          exact hnames.1 (List.mem_map.2 ⟨other, hother, rfl⟩)
        simpa using hne
      have hdrop : dropEntry name ((name, value) :: rest) = rest := by
        rw [dropEntry, List.filter_cons_of_neg (by simp)]
        exact hrest
      rw [List.lookup_cons_self, hdrop]
      exact List.Perm.refl _
    · have hdrop : dropEntry name ((under, value) :: rest) =
          (under, value) :: dropEntry name rest := by
        rw [dropEntry, List.filter_cons_of_pos (by simpa using Ne.symm heq)]
        rfl
      have hlookup : ((under, value) :: rest).lookup name = rest.lookup name := by
        rw [List.lookup_cons, beq_eq_false_iff_ne.2 heq]
      rw [hdrop, hlookup]
      exact ((ih hnames.2).cons _).trans List.perm_middle.symm

theorem setEntry_eq (name : String) (value : α) (entries : List (String × α)) :
    setEntry name value entries = (name, value) :: dropEntry name entries := rfl

/-- What stands under names is what stands under one of them, and the rest. -/
theorem perm_values (hnames : (entries.map Prod.fst).Nodup) (name : String) :
    (entries.map Prod.snd).Perm
      ((entries.lookup name).toList ++ (dropEntry name entries).map Prod.snd) := by
  have hperm := (perm_dropEntry hnames name).map Prod.snd
  rw [List.map_append, List.map_map] at hperm
  simpa [Function.comp_def] using hperm

/-- The secrets of holders are that of one of them, and the rest. -/
theorem perm_secrets {holders : List (String × MasterHolder)}
    (hnames : (holders.map Prod.fst).Nodup) (name : String) :
    (holders.filterMap fun entry => entry.2.secret).Perm
      (((holders.lookup name).bind MasterHolder.secret).toList ++
        (dropEntry name holders).filterMap fun entry => entry.2.secret) := by
  have hperm := (perm_dropEntry hnames name).filterMap fun entry => entry.2.secret
  rw [List.filterMap_append] at hperm
  cases hlookup : holders.lookup name with
  | none =>
    rw [hlookup] at hperm
    exact hperm
  | some holder =>
    rw [hlookup] at hperm
    cases hsecret : holder.secret with
    | none => simpa [hsecret] using hperm
    | some id => simpa [hsecret] using hperm

/-- The names stay different when one is dropped. -/
theorem nodup_dropEntry (hnames : (entries.map Prod.fst).Nodup) (name : String) :
    ((dropEntry name entries).map Prod.fst).Nodup :=
  hnames.sublist (List.filter_sublist.map _)

/-- The names stay different when one is set. -/
theorem nodup_setEntry (hnames : (entries.map Prod.fst).Nodup) (name : String) (value : α) :
    ((setEntry name value entries).map Prod.fst).Nodup := by
  rw [setEntry, List.map_cons, List.nodup_cons]
  refine ⟨?_, nodup_dropEntry hnames name⟩
  intro hmem
  obtain ⟨entry, hentry, heq⟩ := List.mem_map.1 hmem
  have hne := (List.mem_filter.1 hentry).2
  rw [heq, bne_self_eq_false] at hne
  cases hne

end Entries

/-! ### Accounts -/

/-- The handles on values that the client has: those under names, and those of the holders. -/
def held (s : Session) : List ValueId :=
  s.handleIds ++ s.holders.filterMap fun entry => entry.2.secret

/-- The handles on scopes that the client has. -/
def heldScopes (s : Session) : List ScopeId := s.scopes.map Prod.snd

/-- The handles are those that the client has, together with some that are out of hand; names are
different, and scopes track values that were made, each once. -/
structure Accounts (spare : List ValueId) (spareScopes : List ScopeId) (s : Session) : Prop where
  handles : ∀ id, s.vault.handlesOn id = spare.count id + s.held.count id
  scopes : ∀ scope,
    s.vault.handlesOnScope scope = spareScopes.count scope + s.heldScopes.count scope
  handleNames : (s.handles.map Prod.fst).Nodup
  scopeNames : (s.scopes.map Prod.fst).Nodup
  holderNames : (s.holders.map Prod.fst).Nodup
  nodup : ∀ scope, (s.vault.members scope).Nodup
  made : ∀ scope, ∀ id ∈ s.vault.members scope, id < s.vault.cells.size

namespace Accounts

variable {spare : List ValueId} {spareScopes : List ScopeId} {s : Session} {id : ValueId}
  {scope : ScopeId}

/-- The client has a value exactly if it is alive, when no handle is out of hand. -/
theorem mem_held_iff (h : Accounts [] spareScopes s) : id ∈ s.held ↔ 0 < s.vault.handlesOn id := by
  rw [h.handles id, List.count_nil, Nat.zero_add, List.count_pos_iff]

/-- The client has a scope exactly if it is alive, when no handle is out of hand. -/
theorem mem_heldScopes_iff (h : Accounts spare [] s) :
    scope ∈ s.heldScopes ↔ 0 < s.vault.handlesOnScope scope := by
  rw [h.scopes scope, List.count_nil, Nat.zero_add, List.count_pos_iff]

/-- What the client has was made. -/
theorem lt_of_mem_held (h : Accounts spare spareScopes s) (hid : id ∈ s.held) :
    id < s.vault.cells.size := by
  apply Vault.lt_of_handlesOn_pos
  have hcount := List.count_pos_iff.2 hid
  rw [h.handles id]
  omega

/-- A scope that the client has was begun. -/
theorem lt_of_mem_heldScopes (h : Accounts spare spareScopes s) (hscope : scope ∈ s.heldScopes) :
    scope < s.vault.scopes.size := by
  apply Vault.lt_of_handlesOnScope_pos
  have hcount := List.count_pos_iff.2 hscope
  rw [h.scopes scope]
  omega

/-- The vault changes in its values alone. -/
theorem withVault (h : Accounts spare spareScopes s) {v : Vault} {others : List ValueId}
    (hsize : s.vault.cells.size ≤ v.cells.size) (hscopes : v.scopes = s.vault.scopes)
    (hhandles : ∀ id, v.handlesOn id = others.count id + s.held.count id) :
    Accounts others spareScopes (s.withVault v) := by
  have hmembers (scope : ScopeId) : v.members scope = s.vault.members scope :=
    Vault.members_congr (by rw [hscopes])
  refine ⟨hhandles, fun scope => ?_, h.handleNames, h.scopeNames, h.holderNames, fun scope => ?_,
    fun scope id hid => ?_⟩
  · rw [withVault_vault, Vault.handlesOnScope_congr (congrArg (·[scope]?) hscopes)]
    exact h.scopes scope
  · rw [withVault_vault, hmembers]
    exact h.nodup scope
  · rw [withVault_vault, hmembers] at hid
    exact Nat.lt_of_lt_of_le (h.made scope id hid) hsize

/-! ### Handles on values -/

/-- A handle that is out of hand is given up. -/
theorem letGo (h : Accounts (id :: spare) spareScopes s) :
    Accounts spare spareScopes (s.withVault (s.vault.letGo id)) := by
  refine h.withVault (Nat.le_of_eq Array.size_modify.symm) rfl fun other => ?_
  rw [Vault.handlesOn_letGo, h.handles other, List.count_cons]
  simp only [beq_iff_eq]
  omega

/-- The handles that are out of hand, if there are any, are given up. -/
theorem letGo_toList {released : Option ValueId}
    (h : Accounts (released.toList ++ spare) spareScopes s) :
    Accounts spare spareScopes
      { s with vault := released.elim s.vault s.vault.letGo } := by
  cases released with
  | none => exact h
  | some id => exact h.letGo

/-- One handle more on a value is out of hand. -/
theorem retained (h : Accounts spare spareScopes s) (hid : id ∈ s.held) :
    Accounts (id :: spare) spareScopes (s.withVault (s.vault.retained id)) := by
  refine h.withVault (Nat.le_of_eq Array.size_modify.symm) rfl fun other => ?_
  rw [Vault.handlesOn_retained (h.lt_of_mem_held hid), h.handles other, List.count_cons]
  simp only [beq_iff_eq]
  omega

/-- A value is put under a name, and what stood there is out of hand. -/
theorem setHandle (h : Accounts (id :: spare) spareScopes s) (name : String) :
    Accounts ((s.handles.lookup name).toList ++ spare) spareScopes
      { s with handles := setEntry name id s.handles } := by
  refine ⟨fun other => ?_, h.scopes, nodup_setEntry h.handleNames name id, h.scopeNames,
    h.holderNames, h.nodup, h.made⟩
  have hperm := (perm_values h.handleNames name).count_eq other
  have hhandles := h.handles other
  simp only [held, handleIds, setEntry_eq, List.map_cons, List.cons_append, List.count_append,
    List.count_cons] at hperm hhandles ⊢
  omega

/-- A name is dropped, and what stood there is out of hand. -/
theorem dropHandle (h : Accounts spare spareScopes s) {name : String}
    (hname : s.handles.lookup name = some id) :
    Accounts (id :: spare) spareScopes { s with handles := dropEntry name s.handles } := by
  refine ⟨fun other => ?_, h.scopes, nodup_dropEntry h.handleNames name, h.scopeNames,
    h.holderNames, h.nodup, h.made⟩
  have hperm := (perm_values h.handleNames name).count_eq other
  have hhandles := h.handles other
  rw [hname] at hperm
  simp only [held, handleIds, Option.toList_some, List.cons_append, List.nil_append,
    List.count_append, List.count_cons] at hperm hhandles ⊢
  omega

/-- A holder is put under a name, and the secret of the one that stood there is out of hand. -/
theorem setHolder {holder : MasterHolder}
    (h : Accounts (holder.secret.toList ++ spare) spareScopes s) (name : String) :
    Accounts (((s.holders.lookup name).bind MasterHolder.secret).toList ++ spare) spareScopes
      { s with holders := setEntry name holder s.holders } := by
  refine ⟨fun other => ?_, h.scopes, h.handleNames, h.scopeNames,
    nodup_setEntry h.holderNames name holder, h.nodup, h.made⟩
  have hperm := (perm_secrets h.holderNames name).count_eq other
  have hhandles := h.handles other
  have hsecret : ((name, holder) :: dropEntry name s.holders).filterMap
      (fun entry => entry.2.secret) = holder.secret.toList ++
        (dropEntry name s.holders).filterMap fun entry => entry.2.secret := by
    rw [List.filterMap_cons]
    cases holder.secret with
    | none => rfl
    | some id => rfl
  simp only [held, handleIds, setEntry_eq, hsecret, List.count_append] at hperm hhandles ⊢
  omega

/-- A value is kept. -/
theorem kept (h : Accounts (id :: spare) spareScopes s) (target : Option String) :
    Accounts spare spareScopes (s.kept target id) := by
  cases target with
  | none => exact h.letGo
  | some name => exact (h.setHandle name).letGo_toList

/-- A holder is kept. -/
theorem keptHolder {holder : MasterHolder}
    (h : Accounts (holder.secret.toList ++ spare) spareScopes s) (name : String) :
    Accounts spare spareScopes (s.keptHolder name holder) :=
  (h.setHolder name).letGo_toList

/-! ### Handles on scopes -/

/-- The vault changes in one scope alone, which may also wipe values. -/
theorem withScopes (h : Accounts spare spareScopes s) {v : Vault} {others : List ScopeId}
    (hsize : v.cells.size = s.vault.cells.size)
    (hhandles : ∀ id, v.handlesOn id = s.vault.handlesOn id)
    (hscopes : ∀ scope,
      v.handlesOnScope scope = others.count scope + s.heldScopes.count scope)
    (hmembers : ∀ scope, v.members scope = s.vault.members scope ∨ v.members scope = []) :
    Accounts spare others (s.withVault v) := by
  refine ⟨fun id => (hhandles id).trans (h.handles id), hscopes, h.handleNames, h.scopeNames,
    h.holderNames, fun scope => ?_, fun scope id hid => ?_⟩
  · rw [withVault_vault]
    rcases hmembers scope with hsame | hnone
    · rw [hsame]
      exact h.nodup scope
    · rw [hnone]
      exact List.nodup_nil
  · rw [withVault_vault] at hid ⊢
    rw [hsize]
    rcases hmembers scope with hsame | hnone
    · rw [hsame] at hid
      exact h.made scope id hid
    · rw [hnone] at hid
      cases hid

/-- A handle on a scope that is out of hand is given up. -/
theorem scopeReleased (h : Accounts spare (scope :: spareScopes) s) :
    Accounts spare spareScopes (s.withVault (s.vault.scopeReleased scope)) := by
  refine h.withScopes (Vault.size_cells_scopeReleased _ _) (Vault.handlesOn_scopeReleased _ _)
    (fun other => ?_) fun other => ?_
  · rw [Vault.handlesOnScope_scopeReleased, h.scopes other, List.count_cons]
    simp only [beq_iff_eq]
    omega
  · rw [Vault.members_scopeReleased]
    split
    · exact .inr rfl
    · exact .inl rfl

/-- The handle on a scope that is out of hand, if there is one, is given up. -/
theorem scopeReleased_toList {released : Option ScopeId}
    (h : Accounts spare (released.toList ++ spareScopes) s) :
    Accounts spare spareScopes
      { s with vault := released.elim s.vault s.vault.scopeReleased } := by
  cases released with
  | none => exact h
  | some scope => exact h.scopeReleased

/-- One handle more on a scope is out of hand. -/
theorem scopeRetained (h : Accounts spare spareScopes s) (hscope : scope ∈ s.heldScopes) :
    Accounts spare (scope :: spareScopes) (s.withVault (s.vault.scopeRetained scope)) := by
  refine h.withScopes rfl (fun _ => rfl) (fun other => ?_) fun other => .inl ?_
  · rw [Vault.handlesOnScope_scopeRetained (h.lt_of_mem_heldScopes hscope), h.scopes other,
      List.count_cons]
    simp only [beq_iff_eq]
    omega
  · exact Vault.members_scopeRetained _ _ _

/-- The one handle on a new scope is out of hand. -/
theorem scopeBegun (h : Accounts spare spareScopes s) :
    Accounts spare (s.vault.scopes.size :: spareScopes) (s.withVault s.vault.scopeBegun) := by
  refine h.withScopes rfl (fun _ => rfl) (fun other => ?_) fun other => .inl ?_
  · rw [Vault.handlesOnScope_scopeBegun, h.scopes other, List.count_cons]
    simp only [beq_iff_eq]
    omega
  · exact Vault.members_scopeBegun _ _

/-- A scope is put under a name, and what stood there is out of hand. -/
theorem setScope (h : Accounts spare (scope :: spareScopes) s) (name : String) :
    Accounts spare ((s.scopes.lookup name).toList ++ spareScopes)
      { s with scopes := setEntry name scope s.scopes } := by
  refine ⟨h.handles, fun other => ?_, h.handleNames, nodup_setEntry h.scopeNames name scope,
    h.holderNames, h.nodup, h.made⟩
  have hperm := (perm_values h.scopeNames name).count_eq other
  have hscopes := h.scopes other
  simp only [heldScopes, setEntry_eq, List.map_cons, List.count_append, List.count_cons]
    at hperm hscopes ⊢
  omega

/-- A name of a scope is dropped, and the handle that stood there is out of hand. -/
theorem dropScope (h : Accounts spare spareScopes s) {name : String}
    (hname : s.scopes.lookup name = some scope) :
    Accounts spare (scope :: spareScopes) { s with scopes := dropEntry name s.scopes } := by
  refine ⟨h.handles, fun other => ?_, h.handleNames, nodup_dropEntry h.scopeNames name,
    h.holderNames, h.nodup, h.made⟩
  have hperm := (perm_values h.scopeNames name).count_eq other
  have hscopes := h.scopes other
  rw [hname] at hperm
  simp only [heldScopes, Option.toList_some, List.cons_append, List.nil_append, List.count_cons]
    at hperm hscopes ⊢
  omega

/-- A scope is kept. -/
theorem keptScope (h : Accounts spare (scope :: spareScopes) s) (name : String) :
    Accounts spare spareScopes (s.keptScope name scope) :=
  (h.setScope name).scopeReleased_toList

/-! ### Work on the vault -/

/-- Other members of a scope, none of them twice and all of them made. -/
theorem setMembers (h : Accounts spare spareScopes s) (scope : ScopeId) {ids : List ValueId}
    (hnodup : ids.Nodup) (hmade : ∀ id ∈ ids, id < s.vault.cells.size) :
    Accounts spare spareScopes (s.withVault (s.vault.setMembers scope ids)) := by
  have hmembers (other : ScopeId) : (s.vault.setMembers scope ids).members other = ids ∨
      (s.vault.setMembers scope ids).members other = [] ∨
      (s.vault.setMembers scope ids).members other = s.vault.members other := by
    by_cases heq : other = scope
    · rw [heq, Vault.members_setMembers_self]
      split
      · exact .inl rfl
      · exact .inr (.inl rfl)
    · exact .inr (.inr (Vault.members_congr (Vault.scopes_setMembers_of_ne _ heq _)))
  refine ⟨h.handles, fun other => ?_, h.handleNames, h.scopeNames, h.holderNames,
    fun other => ?_, fun other id hid => ?_⟩
  · rw [withVault_vault, Vault.handlesOnScope_setMembers]
    exact h.scopes other
  · rw [withVault_vault]
    rcases hmembers other with hids | hnone | hsame
    · rwa [hids]
    · rw [hnone]
      exact List.nodup_nil
    · rw [hsame]
      exact h.nodup other
  · rw [withVault_vault] at hid
    rcases hmembers other with hids | hnone | hsame
    · exact hmade id (hids ▸ hid)
    · rw [hnone] at hid
      cases hid
    · exact h.made other id (hsame ▸ hid)

/-- Work that only adds leaves handles out of hand. -/
theorem grows (h : Accounts [] spareScopes s) {v : Vault}
    (hgrows : Vault.Grows s.handleIds scope spare s.vault v) :
    Accounts spare spareScopes (s.withVault v) := by
  obtain ⟨ids, hids, hscopes⟩ := hgrows.scopes
  have hmade : ∀ id ∈ ids, id < v.cells.size := by
    intro id hid
    rcases hids id hid with hknown | hnew
    · exact Nat.lt_of_lt_of_le (h.lt_of_mem_held (List.mem_append_left _ hknown)) hgrows.size_le
    · exact hnew.2
  -- the values first, then what the scope tracks of them
  have hcells : Accounts spare spareScopes
      (s.withVault { v with scopes := s.vault.scopes }) := by
    refine h.withVault hgrows.size_le rfl fun id => ?_
    have hhandles := hgrows.handlesOn id
    rw [h.handles id, List.count_nil] at hhandles
    change v.handlesOn id = _
    omega
  have hv : ({ v with scopes := s.vault.scopes } : Vault).setMembers scope
      (Vault.addMembers (s.vault.members scope) ids) = v := by
    change { v with scopes := (s.vault.track scope ids).scopes } = v
    rw [← hscopes]
  have hnodup := Vault.nodup_addMembers (h.nodup scope) ids
  have htracked := hcells.setMembers scope hnodup fun id hid => by
    rcases Vault.mem_addMembers.1 hid with hold | hnew
    · exact Nat.lt_of_lt_of_le (h.made scope id hold) hgrows.size_le
    · exact hmade id hnew
  rwa [withVault_vault, withVault_withVault, hv] at htracked

end Accounts

/-! ### Steps and runs -/

variable {s t : Session} {command : Command}

/-- However a session changes, its handles stay accounted for. -/
theorem accounts_turn (h : Accounts [] [] s) (hturn : Turn s command t) : Accounts [] [] t := by
  cases hturn with
  | idle => exact h
  | worked _ _ hgrows => exact h.grows hgrows
  | made target _ _ hgrows => exact (h.grows hgrows).kept target
  | copied target _ hid => exact (h.retained (List.mem_append_left _ hid)).kept target
  | dropped _ hname => exact (h.dropHandle hname).letGo
  | destroyed _ _ =>
    refine h.withVault (Nat.le_of_eq (Vault.size_cells_wipe _ _).symm) rfl fun other => ?_
    rw [Vault.handlesOn_wipe]
    exact h.handles other
  | begun => exact h.scopeBegun.keptScope _
  | scopeCopied _ _ hname => exact (h.scopeRetained (mem_map_snd_of_lookup hname)).keptScope _
  | scopeDropped _ _ hname => exact (h.dropScope hname).scopeReleased
  | @replaced scope id ids _ _ hids =>
    have hnodup := Vault.nodup_addMembers ((h.nodup scope).erase id) ids
    refine h.setMembers scope hnodup fun other hother => ?_
    rcases Vault.mem_addMembers.1 hother with hold | hnew
    · exact h.made scope other (List.mem_of_mem_erase hold)
    · exact h.lt_of_mem_held (List.mem_append_left _ (hids other hnew))
  | @flushed name scope =>
    refine h.withScopes (Vault.size_cells_flushed _ _) (Vault.handlesOn_flushed _ _)
      (fun other => ?_) fun other => ?_
    · rw [Vault.handlesOnScope_flushed]
      exact h.scopes other
    · rw [Vault.members_flushed]
      split
      · exact .inr rfl
      · exact .inl rfl
  | holderMade name =>
    have hempty : Accounts (MasterHolder.empty.secret.toList ++ []) [] s := h
    exact hempty.keptHolder name
  | @masterSet name value holder _ hname hunset =>
    have hgrows : Vault.Grows s.handleIds s.vault.scopes.size [s.vault.cells.size] s.vault
        (s.vault.addCell ⟨.text value, 1⟩) := (Vault.Grows.refl s.vault).addCell (.text value)
    have hmade : Accounts ((⟨some s.vault.cells.size⟩ : MasterHolder).secret.toList ++ []) []
        (s.withVault (s.vault.addCell ⟨.text value, 1⟩)) := h.grows hgrows
    -- the holder that stood there had no secret
    have hset := hmade.setHolder name
    rw [withVault_holders, hname, Option.bind_some, hunset] at hset
    exact hset

/-- After every command the handles are accounted for. -/
theorem accounts_step (h : Accounts [] [] s) (command : Command) :
    Accounts [] [] (step command s).2 :=
  accounts_turn h (turn_step s command)

theorem accounts_run (h : Accounts [] [] s) (commands : List Command) :
    Accounts [] [] (run commands s) := by
  induction commands generalizing s with
  | nil => exact h
  | cons command rest ih => exact ih (accounts_step h command)

/-- A session with nothing in it has no handles. -/
theorem accounts_empty (nonces : Nat → Gcm.Nonce) : Accounts [] [] (empty nonces) := by
  refine ⟨fun _ => rfl, fun _ => rfl, List.nodup_nil, List.nodup_nil, List.nodup_nil, fun _ => ?_,
    fun scope id hid => ?_⟩
  · exact List.nodup_nil
  · cases hid

end FieldVault.Session
