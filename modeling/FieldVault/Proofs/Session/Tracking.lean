import FieldVault.Proofs.Session.Contents
import Mathlib.Data.Finset.Card

/-!
# Scopes are finite sets

What a scope tracks is a finite set of values, and in every session that a run of commands leads to
each command on scopes is an operation on such sets (`scopes_refine_sets`): tracking an item is a
union with its leaves, replacing a value takes it out and puts leaves in, a flush empties the set
and counts its living and its expired members. All names of a scope share its set, no other scope's
set is touched, and what a command newly gives the client is in no set yet.
-/

set_option autoImplicit false

namespace FieldVault.Session

open Wipe

/-- The set of the values that a scope tracks. -/
def tracked (s : Session) (scope : ScopeId) : Finset ValueId :=
  (s.vault.members scope).toFinset

/-- The commands on scopes are operations on the sets of what they track. Names of values are
resolved by the names in the session, and `Item.leaves` are the single values in an item, however it
is nested. -/
structure RefinesSets (s : Session) : Prop where
  /-- Tracking an item is a union; the answer is the number of values that were not tracked. -/
  mark : ∀ {name : String} {scope : ScopeId} {names : Item String} {item : Item ValueId},
    s.scopes.lookup name = some scope →
    (names.resolve? fun name => s.handles.lookup name) = some item →
    (step (.mark name names) s).1 = .marked (item.leaves.toFinset \ s.tracked scope).card ∧
      (step (.mark name names) s).2.tracked scope = s.tracked scope ∪ item.leaves.toFinset
  /-- An untyped value is tracked as the item it holds, or not at all. -/
  markUntyped : ∀ {name : String} {scope : ScopeId} {names : Untyped String}
    {value : Untyped ValueId}, s.scopes.lookup name = some scope →
    (names.resolve? fun name => s.handles.lookup name) = some value →
    (∀ item, value.classify = .ok item → (step (.markUntyped name names) s).1 =
        .marked (item.leaves.toFinset \ s.tracked scope).card ∧
      (step (.markUntyped name names) s).2.tracked scope =
        s.tracked scope ∪ item.leaves.toFinset) ∧
    ∀ fault, value.classify = .error fault →
      step (.markUntyped name names) s = (.notWipeable fault, s)
  /-- A single value that is tracked is replaced by the leaves of an item; of anything else nothing
  happens. -/
  replace : ∀ {name : String} {scope : ScopeId} {currentNames replacementNames : Item String}
    {current replacement : Item ValueId}, s.scopes.lookup name = some scope →
    (currentNames.resolve? fun name => s.handles.lookup name) = some current →
    (replacementNames.resolve? fun name => s.handles.lookup name) = some replacement →
    (∀ id ∈ s.tracked scope, current = .one id →
      (step (.replace name currentNames replacementNames) s).1 = .replaced true ∧
      (step (.replace name currentNames replacementNames) s).2.tracked scope =
        (s.tracked scope).erase id ∪ replacement.leaves.toFinset) ∧
    ((∀ id ∈ s.tracked scope, current ≠ .one id) →
      step (.replace name currentNames replacementNames) s = (.replaced false, s))
  /-- An item is tracked if it is a single value in the set. -/
  isTracked : ∀ {name : String} {scope : ScopeId} {names : Item String} {item : Item ValueId},
    s.scopes.lookup name = some scope →
    (names.resolve? fun name => s.handles.lookup name) = some item →
    ∃ yes, step (.isTracked name names) s = (.tracked yes, s) ∧
      (yes = true ↔ ∃ id ∈ s.tracked scope, item = .one id)
  /-- The count is the size of the set, whether its values are alive or not. -/
  count : ∀ scope, s.vault.trackedCount scope = (s.tracked scope).card
  /-- A flush tells the values that the client still has from the others, and empties the set, so
  that a second flush finds nothing. -/
  flush : ∀ {name : String} {scope : ScopeId}, s.scopes.lookup name = some scope →
    ∃ report, (step (.flush name) s).1 = .flushed report ∧
      report.destroyed = ((s.tracked scope).filter (· ∈ s.held)).card ∧
      report.expired = ((s.tracked scope).filter (· ∉ s.held)).card ∧
      report.destroyed + report.expired = s.vault.trackedCount scope ∧
      (step (.flush name) s).2.tracked scope = ∅ ∧
      (step (.flush name) (step (.flush name) s).2).1 = .flushed ⟨0, 0⟩
  /-- A new scope tracks nothing. -/
  beginScope : ∀ name, (step (.beginScope name) s).2.scopes.lookup name =
      some s.vault.scopes.size ∧
    (step (.beginScope name) s).2.tracked s.vault.scopes.size = ∅
  /-- Another name of a scope stands for the same set. -/
  copyScope : ∀ {name : String} {scope : ScopeId} (target : String),
    s.scopes.lookup name = some scope →
    (step (.copyScope name target) s).2.scopes.lookup target = some scope ∧
      (step (.copyScope name target) s).2.tracked scope = s.tracked scope
  /-- What the client has after a command and did not have before is in no set. -/
  fresh : ∀ command, ∀ id ∈ (step command s).2.held, id ∉ s.held → ∀ scope, id ∉ s.tracked scope
  /-- A command leaves the sets of all scopes alone that it does not name. -/
  isolated : ∀ command scope, ¬ s.Names command scope →
    (step command s).2.tracked scope = s.tracked scope

variable {s : Session} {command : Command} {scope : ScopeId} {id : ValueId}

/-! ### Lists of members as sets -/

theorem mem_tracked : id ∈ s.tracked scope ↔ id ∈ s.vault.members scope := List.mem_toFinset

theorem toFinset_addMembers (members ids : List ValueId) :
    (Vault.addMembers members ids).toFinset = members.toFinset ∪ ids.toFinset := by
  ext id
  rw [List.mem_toFinset, Vault.mem_addMembers, Finset.mem_union, List.mem_toFinset,
    List.mem_toFinset]

/-- The number of values that are added to a set is the number of those that were not in it. -/
theorem length_addMembers_sub {members : List ValueId} (h : members.Nodup) (ids : List ValueId) :
    (Vault.addMembers members ids).length - members.length =
      (ids.toFinset \ members.toFinset).card := by
  rw [← List.toFinset_card_of_nodup h,
    ← List.toFinset_card_of_nodup (Vault.nodup_addMembers h ids), toFinset_addMembers,
    Finset.union_comm, ← Finset.card_sdiff_add_card]
  exact Nat.add_sub_cancel _ _

/-- The members set are the set found, if the client has the scope. -/
theorem tracked_setMembers (h : Accounts [] [] s) {name : String}
    (hname : s.scopes.lookup name = some scope) (ids : List ValueId) :
    (s.withVault (s.vault.setMembers scope ids)).tracked scope = ids.toFinset := by
  have hlt := h.lt_of_mem_heldScopes (mem_map_snd_of_lookup hname)
  rw [tracked, withVault_vault, Vault.members_setMembers_self, if_pos hlt]

/-- The living and the expired members of a scope, counted. -/
theorem length_filter_isAlive (h : Accounts [] [] s) (scope : ScopeId) :
    ((s.vault.members scope).filter s.vault.isAlive).length =
      ((s.tracked scope).filter (· ∈ s.held)).card := by
  rw [← List.toFinset_card_of_nodup ((h.nodup scope).filter _), tracked, List.toFinset_filter]
  congr 1
  apply Finset.filter_congr
  intro id _
  rw [Vault.isAlive_eq, decide_eq_true_iff, h.mem_held_iff]

/-! ### The commands -/

theorem count_tracked (h : Accounts [] [] s) (scope : ScopeId) :
    s.vault.trackedCount scope = (s.tracked scope).card :=
  (List.toFinset_card_of_nodup (h.nodup scope)).symm

theorem marked_of_step (h : Accounts [] [] s) {name : String}
    (hname : s.scopes.lookup name = some scope) {item : Item ValueId}
    (hstep : step command s = (.marked ((Vault.mark scope item).run s.vault).1,
      s.withVault (s.vault.track scope item.leaves))) :
    (step command s).1 = .marked (item.leaves.toFinset \ s.tracked scope).card ∧
      (step command s).2.tracked scope = s.tracked scope ∪ item.leaves.toFinset := by
  rw [hstep, Vault.mark_run]
  constructor
  · exact congrArg Reply.marked (length_addMembers_sub (h.nodup scope) item.leaves)
  · exact (tracked_setMembers h hname _).trans (toFinset_addMembers _ _)

/-- What becomes of a set when a value is replaced. -/
theorem replaced_of_step (h : Accounts [] [] s) {name : String}
    (hname : s.scopes.lookup name = some scope)
    {currentNames replacementNames : Item String} {current replacement : Item ValueId}
    (hcurrent : (currentNames.resolve? fun name => s.handles.lookup name) = some current)
    (hreplacement :
      (replacementNames.resolve? fun name => s.handles.lookup name) = some replacement) :
    (∀ id ∈ s.tracked scope, current = .one id →
      (step (.replace name currentNames replacementNames) s).1 = .replaced true ∧
      (step (.replace name currentNames replacementNames) s).2.tracked scope =
        (s.tracked scope).erase id ∪ replacement.leaves.toFinset) ∧
    ((∀ id ∈ s.tracked scope, current ≠ .one id) →
      step (.replace name currentNames replacementNames) s = (.replaced false, s)) := by
  rw [step_replace hname hcurrent hreplacement]
  constructor
  · rintro id hid rfl
    dsimp only [Item.single?]
    rw [if_pos (List.contains_iff_mem.2 (mem_tracked.1 hid))]
    refine ⟨rfl, ?_⟩
    have herase : ((s.vault.members scope).erase id).toFinset = (s.tracked scope).erase id := by
      ext other
      rw [List.mem_toFinset, (h.nodup scope).mem_erase_iff, Finset.mem_erase, mem_tracked]
    exact (tracked_setMembers h hname _).trans ((toFinset_addMembers _ _).trans (by rw [herase]))
  · intro hnone
    cases current with
    | one id =>
      dsimp only [Item.single?]
      rw [if_neg]
      intro hid
      exact hnone id (mem_tracked.2 (List.contains_iff_mem.1 hid)) rfl
    | many items => rfl
    | none => rfl

/-- Asking whether an item is tracked. -/
theorem isTracked_iff {item : Item ValueId} :
    s.vault.isTracked scope item = true ↔ ∃ id ∈ s.tracked scope, item = .one id := by
  unfold Vault.isTracked
  cases item with
  | one id =>
    change (s.vault.members scope).contains id = true ↔ _
    rw [List.contains_iff_mem]
    constructor
    · exact fun hid => ⟨id, mem_tracked.2 hid, rfl⟩
    · rintro ⟨other, hother, heq⟩
      rw [Item.one.inj heq]
      exact mem_tracked.1 hother
  | many items => exact ⟨nofun, fun ⟨_, _, heq⟩ => nomatch heq⟩
  | none => exact ⟨nofun, fun ⟨_, _, heq⟩ => nomatch heq⟩

/-- What a flush reports, and the empty set it leaves. -/
theorem flushed_of_step (h : Accounts [] [] s) {name : String}
    (hname : s.scopes.lookup name = some scope) :
    ∃ report, (step (.flush name) s).1 = .flushed report ∧
      report.destroyed = ((s.tracked scope).filter (· ∈ s.held)).card ∧
      report.expired = ((s.tracked scope).filter (· ∉ s.held)).card ∧
      report.destroyed + report.expired = s.vault.trackedCount scope ∧
      (step (.flush name) s).2.tracked scope = ∅ ∧
      (step (.flush name) (step (.flush name) s).2).1 = .flushed ⟨0, 0⟩ := by
  have hsum := Finset.card_filter_add_card_filter_not (s := s.tracked scope) (· ∈ s.held)
  have hcount := count_tracked h scope
  have hlength : (s.vault.members scope).length = (s.tracked scope).card := hcount
  have hempty : (s.vault.flushed scope).members scope = [] := by
    rw [Vault.members_flushed, if_pos rfl]
  have hagain : (s.withVault (s.vault.flushed scope)).scopes.lookup name = some scope := hname
  rw [step_flush hname, step_flush hagain, Vault.flush_run]
  refine ⟨_, rfl, length_filter_isAlive h scope, ?_, ?_, ?_, ?_⟩
  · dsimp only
    rw [length_filter_isAlive h, hlength]
    omega
  · dsimp only
    rw [length_filter_isAlive h, hlength, hcount]
    omega
  · rw [tracked, withVault_vault, hempty, List.toFinset_nil]
  · rw [withVault_vault, Vault.flush_run, hempty]
    rfl

/-- A new scope stands under its name and tracks nothing. -/
theorem begun_of_step (h : Accounts [] [] s) (name : String) :
    (step (.beginScope name) s).2.scopes.lookup name = some s.vault.scopes.size ∧
      (step (.beginScope name) s).2.tracked s.vault.scopes.size = ∅ := by
  rw [step_beginScope]
  refine ⟨List.lookup_cons_self, ?_⟩
  have hmembers : ((s.withVault s.vault.scopeBegun).keptScope name
      s.vault.scopes.size).vault.members s.vault.scopes.size = [] := by
    rw [members_keptScope]
    · rw [withVault_vault, Vault.members_scopeBegun]
      exact Vault.members_of_size_le (Nat.le_refl _)
    · -- the scope that stood under the name is an older one
      intro hname
      have hlt := h.lt_of_mem_heldScopes (mem_map_snd_of_lookup hname)
      exact absurd hlt (Nat.lt_irrefl _)
  rw [tracked, hmembers, List.toFinset_nil]

/-- Another name of a scope stands for the same set. -/
theorem copied_of_step (h : Accounts [] [] s) {name : String}
    (hname : s.scopes.lookup name = some scope) (target : String) :
    (step (.copyScope name target) s).2.scopes.lookup target = some scope ∧
      (step (.copyScope name target) s).2.tracked scope = s.tracked scope := by
  have hscope : scope ∈ s.heldScopes := mem_map_snd_of_lookup hname
  rw [step_copyScope hname]
  refine ⟨List.lookup_cons_self, ?_⟩
  rw [tracked, tracked, members_keptScope, withVault_vault, Vault.members_scopeRetained]
  -- the scope has a handle under its own name and the one more
  intro _
  have hpos := h.mem_heldScopes_iff.1 hscope
  rw [withVault_vault, Vault.handlesOnScope_scopeRetained (h.lt_of_mem_heldScopes hscope),
    if_pos rfl]
  omega

/-- What the client newly has was not tracked. -/
theorem not_mem_tracked_of_fresh (h : Accounts [] [] s) (hnew : id ∈ (step command s).2.held)
    (hold : id ∉ s.held) (scope : ScopeId) : id ∉ s.tracked scope := by
  intro hid
  have hlt := h.made scope id (mem_tracked.1 hid)
  have halive := (accounts_step h command).mem_held_iff.1 hnew
  -- an older value that is alive after the command was so before
  have hkeeps := keeps_turn h rfl (turn_step s command)
  exact hold (h.mem_held_iff.2 (hkeeps.alive id hlt halive))

/-- However a session changes, the scopes that the command does not name track what they did. -/
theorem members_turn {t : Session} (hturn : Turn s command t) (hnames : ¬ s.Names command scope) :
    t.vault.members scope = s.vault.members scope := by
  cases hturn with
  | idle => rfl
  | @worked other v _ hscope hgrows =>
    apply hgrows.members_of_ne
    rintro rfl
    exact hnames hscope
  | @made other v id contents target _ hscope hgrows =>
    rw [Vault.members_congr (congrArg (·[scope]?) (kept_vault_scopes _ _ _)), withVault_vault]
    rcases hscope with hsame | hscope
    · exact Vault.members_congr (congrArg (·[scope]?) hsame)
    · apply hgrows.members_of_ne
      rintro rfl
      exact hnames hscope
  | copied target =>
    exact Vault.members_congr (congrArg (·[scope]?) (kept_vault_scopes _ _ _))
  | dropped => rfl
  | destroyed => rfl
  | @begun name _ hin =>
    rw [members_keptScope]
    · exact Vault.members_scopeBegun _ _
    · exact fun hname => absurd ⟨name, hin, hname⟩ hnames
  | @scopeCopied name target other _ hin hname =>
    rw [members_keptScope]
    · exact Vault.members_scopeRetained _ _ _
    · exact fun htarget => absurd ⟨target, hin, htarget⟩ hnames
  | @scopeDropped name other _ hin hname =>
    change (s.vault.scopeReleased other).members scope = _
    rw [Vault.members_scopeReleased, if_neg]
    rintro ⟨-, rfl⟩
    exact hnames ⟨name, hin, hname⟩
  | @replaced other id ids _ hscope =>
    apply Vault.members_congr
    apply Vault.scopes_setMembers_of_ne
    rintro rfl
    exact hnames hscope
  | @flushed name other hcommand hname =>
    rw [withVault_vault, Vault.members_flushed, if_neg]
    rintro rfl
    refine hnames ⟨name, ?_, hname⟩
    rw [hcommand]
    exact List.mem_singleton_self name
  | holderMade => exact Vault.members_congr (congrArg (·[scope]?) (keptHolder_vault_scopes _ _ _))
  | masterSet => rfl

/-! ### Runs -/

/-- When handles are accounted for, commands on scopes are operations on sets. -/
theorem refinesSets_of_accounts (h : Accounts [] [] s) : RefinesSets s where
  mark hname hitem := marked_of_step h hname (step_mark hname hitem)
  markUntyped hname hvalue := by
    have hstep := step_markUntyped hname hvalue
    constructor
    · intro item hitem
      rw [hitem] at hstep
      exact marked_of_step h hname hstep
    · intro fault hfault
      rw [hfault] at hstep
      exact hstep
  replace hname hcurrent hreplacement := replaced_of_step h hname hcurrent hreplacement
  isTracked hname hitem := by
    refine ⟨_, ?_, isTracked_iff⟩
    rw [step_eq, outcome_isTracked hname hitem]
  count := count_tracked h
  flush hname := flushed_of_step h hname
  beginScope := begun_of_step h
  copyScope target hname := copied_of_step h hname target
  fresh _ _ hnew hold scope := not_mem_tracked_of_fresh h hnew hold scope
  isolated command scope hnames := by
    rw [tracked, tracked, members_turn (turn_step s command) hnames]

/-- In every session that a run of commands leads to, the commands on scopes are operations on
finite sets of values. -/
theorem scopes_refine_sets (nonces : Nat → Gcm.Nonce) (commands : List Command) :
    RefinesSets (run commands (empty nonces)) :=
  refinesSets_of_accounts (accounts_run (accounts_empty nonces) commands)

end FieldVault.Session
