import FieldVault.Proofs.Session.Seclusion
import FieldVault.Proofs.Session.Tracking

/-!
# The master secret along a run

A holder is empty until it is first set, and from then on it holds the value of that first setting,
whatever commands come in between (`master_along_run`). An empty holder refuses every copy; one that
is set refuses every other value and gives each reader a copy of its own, which is in no scope but
that of the reader. No command reaches the secret itself.
-/

set_option autoImplicit false

namespace FieldVault.Session

open Wipe

variable {α β : Type}

/-! ### Commands that leave the holders alone -/

/-- A computation leaves the holders as they are. -/
def LeavesHolders (x : SessionM α) : Prop := ∀ s, (outcome x s).2.holders = s.holders

theorem OnlyLooks.leavesHolders {x : SessionM α} (h : OnlyLooks x) : LeavesHolders x := fun s => by
  rw [h s]

theorem leavesHolders_bind {x : SessionM α} {f : α → SessionM β} (hx : LeavesHolders x)
    (hf : ∀ a, LeavesHolders (f a)) : LeavesHolders (x >>= f) := by
  intro s
  have hbefore := hx s
  rw [outcome_bind]
  generalize outcome x s = result at hbefore ⊢
  obtain ⟨_ | a, t⟩ := result
  · exact hbefore
  · exact (hf a t).trans hbefore

theorem leavesHolders_pure (a : α) : LeavesHolders (pure a) := (onlyLooks_pure a).leavesHolders

theorem leavesHolders_onVault (work : VaultM α) : LeavesHolders (onVault work) := fun _ => rfl

theorem leavesHolders_keepScope (name : String) (id : ScopeId) :
    LeavesHolders (keepScope name id) := fun s => by
  rw [outcome_keepScope]
  rfl

theorem leavesHolders_present (target : Option String) (id : ValueId) :
    LeavesHolders (present target id) := by
  intro s
  cases hcontents : s.vault.contents? id with
  | none => rw [outcome_present_none hcontents]
  | some contents =>
    rw [outcome_present hcontents]
    cases target with
    | none => rfl
    | some name => rfl

theorem leavesHolders_presentResult (target : Option String)
    (result : Except Cipher.Fault ValueId) : LeavesHolders (presentResult target result) := by
  cases result with
  | error fault => exact leavesHolders_pure _
  | ok id => exact leavesHolders_present target id

theorem leavesHolders_useCipher (call : Call)
    (use : FieldCipher → ScopeId → ValueId → String → VaultM α) :
    LeavesHolders (useCipher call use) :=
  leavesHolders_bind (onlyLooks_scope _).leavesHolders fun _ =>
    leavesHolders_bind (onlyLooks_handle _).leavesHolders fun _ => leavesHolders_onVault _

/-- The commands that make a holder or set one. -/
def Command.SetsHolder : Command → Prop
  | .newHolder _ => True
  | .setMaster _ _ => True
  | _ => False

/-- Every other command leaves the holders as they are. -/
theorem leavesHolders_execute {command : Command} (h : ¬ command.SetsHolder) :
    LeavesHolders (execute command) := by
  cases command with
  | newText target value =>
    exact leavesHolders_bind (leavesHolders_onVault _) fun _ => leavesHolders_present _ _
  | newBytes target value =>
    exact leavesHolders_bind (leavesHolders_onVault _) fun _ => leavesHolders_present _ _
  | newKey target secret context label =>
    rw [execute]
    cases Cipher.deriveKey? secret context label with
    | none => exact leavesHolders_pure _
    | some key =>
      exact leavesHolders_bind (leavesHolders_onVault _) fun _ => leavesHolders_present _ _
  | copyHandle source target =>
    exact leavesHolders_bind (onlyLooks_handle _).leavesHolders fun _ =>
      leavesHolders_bind (leavesHolders_onVault _) fun _ => leavesHolders_present _ _
  | duplicate source target =>
    exact leavesHolders_bind (onlyLooks_handle _).leavesHolders fun _ =>
      leavesHolders_bind (leavesHolders_onVault _) fun _ => leavesHolders_present _ _
  | dropHandle name =>
    exact leavesHolders_bind (onlyLooks_handle _).leavesHolders fun _ =>
      leavesHolders_bind (fun _ => rfl) fun _ =>
        leavesHolders_bind (leavesHolders_onVault _) fun _ => leavesHolders_pure _
  | destroyKey name =>
    exact leavesHolders_bind (onlyLooks_handle _).leavesHolders fun _ =>
      leavesHolders_bind (leavesHolders_onVault _) fun _ =>
        leavesHolders_bind onlyLooks_get.leavesHolders fun _ => leavesHolders_pure _
  | beginScope name =>
    exact leavesHolders_bind (leavesHolders_onVault _) fun _ =>
      leavesHolders_bind (leavesHolders_keepScope _ _) fun _ => leavesHolders_pure _
  | copyScope name target =>
    exact leavesHolders_bind (onlyLooks_scope _).leavesHolders fun _ =>
      leavesHolders_bind (leavesHolders_onVault _) fun _ =>
        leavesHolders_bind (leavesHolders_keepScope _ _) fun _ => leavesHolders_pure _
  | dropScope name =>
    exact leavesHolders_bind (onlyLooks_scope _).leavesHolders fun _ =>
      leavesHolders_bind (fun _ => rfl) fun _ =>
        leavesHolders_bind (leavesHolders_onVault _) fun _ => leavesHolders_pure _
  | mark name item =>
    exact leavesHolders_bind (onlyLooks_scope _).leavesHolders fun _ =>
      leavesHolders_bind (onlyLooks_item _).leavesHolders fun _ =>
        leavesHolders_bind (leavesHolders_onVault _) fun _ => leavesHolders_pure _
  | markUntyped name value =>
    refine leavesHolders_bind (onlyLooks_scope _).leavesHolders fun _ => ?_
    refine leavesHolders_bind (fun s => ?_) fun _ =>
      leavesHolders_bind (leavesHolders_onVault _) fun result => ?_
    · rw [outcome_untyped]
    · cases result with
      | error fault => exact leavesHolders_pure _
      | ok count => exact leavesHolders_pure _
  | replace name current replacement =>
    exact leavesHolders_bind (onlyLooks_scope _).leavesHolders fun _ =>
      leavesHolders_bind (onlyLooks_item _).leavesHolders fun _ =>
        leavesHolders_bind (onlyLooks_item _).leavesHolders fun _ =>
          leavesHolders_bind (leavesHolders_onVault _) fun _ => leavesHolders_pure _
  | flush name =>
    exact leavesHolders_bind (onlyLooks_scope _).leavesHolders fun _ =>
      leavesHolders_bind (leavesHolders_onVault _) fun _ => leavesHolders_pure _
  | newHolder name => exact absurd trivial h
  | setMaster name value => exact absurd trivial h
  | copyMaster name within target =>
    refine leavesHolders_bind (onlyLooks_holder _).leavesHolders fun _ =>
      leavesHolders_bind (onlyLooks_scope _).leavesHolders fun _ =>
        leavesHolders_bind (leavesHolders_onVault _) fun result => ?_
    cases result with
    | error fault => exact leavesHolders_pure _
    | ok id => exact leavesHolders_present _ _
  | encrypt call plaintext =>
    exact leavesHolders_bind (onlyLooks_inputBytes _).leavesHolders fun _ =>
      leavesHolders_bind (leavesHolders_useCipher _ _) fun _ =>
        leavesHolders_bind (leavesHolders_onVault _) fun _ => leavesHolders_present _ _
  | encryptText call plaintext =>
    exact leavesHolders_bind (onlyLooks_inputText _).leavesHolders fun _ =>
      leavesHolders_bind (leavesHolders_useCipher _ _) fun _ =>
        leavesHolders_bind (leavesHolders_onVault _) fun _ => leavesHolders_present _ _
  | decrypt call envelope =>
    exact leavesHolders_bind (onlyLooks_inputBytes _).leavesHolders fun _ =>
      leavesHolders_bind (leavesHolders_useCipher _ _) fun _ => leavesHolders_present _ _
  | decryptText call envelope =>
    exact leavesHolders_bind (onlyLooks_inputText _).leavesHolders fun _ =>
      leavesHolders_bind (leavesHolders_useCipher _ _) fun _ => leavesHolders_present _ _
  | tryDecrypt call envelope =>
    exact leavesHolders_bind (onlyLooks_inputBytes _).leavesHolders fun _ =>
      leavesHolders_bind (leavesHolders_useCipher _ _) fun _ => leavesHolders_presentResult _ _
  | tryDecryptText call envelope =>
    exact leavesHolders_bind (onlyLooks_inputText _).leavesHolders fun _ =>
      leavesHolders_bind (leavesHolders_useCipher _ _) fun _ => leavesHolders_presentResult _ _
  | _ =>
    apply OnlyLooks.leavesHolders
    apply onlyLooks_of_looks
    trivial

theorem holders_step {command : Command} (h : ¬ command.SetsHolder) (s : Session) :
    (step command s).2.holders = s.holders := by
  have hleaves := leavesHolders_execute h s
  rw [step_eq]
  generalize outcome (execute command) s = result at hleaves ⊢
  obtain ⟨_ | reply, t⟩ := result
  · rfl
  · exact hleaves

/-! ### Commands on holders -/

theorem lookup_setEntry_self (name : String) (value : α) (entries : List (String × α)) :
    (setEntry name value entries).lookup name = some value := List.lookup_cons_self

theorem lookup_dropEntry_of_ne {name other : String} (hne : name ≠ other)
    (entries : List (String × α)) :
    (dropEntry other entries).lookup name = entries.lookup name := by
  induction entries with
  | nil => rfl
  | cons entry rest ih =>
    obtain ⟨under, value⟩ := entry
    by_cases hunder : under = other
    · have hdrop : dropEntry other ((under, value) :: rest) = dropEntry other rest :=
        List.filter_cons_of_neg (by simp [hunder])
      rw [hdrop, ih, List.lookup_cons, beq_eq_false_iff_ne.2 (hunder ▸ hne)]
    · have hkeep : dropEntry other ((under, value) :: rest) =
          (under, value) :: dropEntry other rest :=
        List.filter_cons_of_pos (by simpa using hunder)
      rw [hkeep, List.lookup_cons, List.lookup_cons, ih]

theorem lookup_setEntry_of_ne {name other : String} (hne : name ≠ other) (value : α)
    (entries : List (String × α)) :
    (setEntry other value entries).lookup name = entries.lookup name := by
  rw [setEntry_eq, List.lookup_cons, beq_eq_false_iff_ne.2 hne]
  exact lookup_dropEntry_of_ne hne entries

variable {s : Session} {name : String}

theorem step_newHolder (s : Session) (name : String) :
    step (.newHolder name) s = (.done, s.keptHolder name .empty) := by
  rw [step_eq]
  simp only [execute, outcome_bind, outcome_keepHolder]
  rfl

/-- Setting a holder that is set is refused. -/
theorem step_setMaster_of_set {holder : MasterHolder} (hname : s.holders.lookup name = some holder)
    (hset : holder.secret.isSome) (value : String) :
    step (.setMaster name value) s = (.notHeld .alreadySet, s) := by
  obtain ⟨secret, hsecret⟩ := Option.isSome_iff_exists.1 hset
  rw [step_eq]
  simp only [execute, outcome_bind, outcome_holder, hname, outcome_onVault, MasterHolder.set,
    hsecret]
  rfl

/-- Setting an empty holder. -/
theorem step_setMaster_of_unset (hname : s.holders.lookup name = some .empty) (value : String) :
    step (.setMaster name value) s = (.masterSet, { s with
      vault := s.vault.addCell ⟨.text value, 1⟩
      holders := setEntry name ⟨some s.vault.cells.size⟩ s.holders }) := by
  rw [step_eq]
  simp only [execute, outcome_bind, outcome_holder, hname, outcome_onVault, MasterHolder.set,
    MasterHolder.empty]
  rfl

/-- A command on a holder that is not there. -/
theorem step_setMaster_of_none (hname : s.holders.lookup name = none) (value : String) :
    (step (.setMaster name value) s).2 = s := by
  rw [step_eq]
  simp only [execute, outcome_bind, outcome_holder, hname]

theorem step_isSet {holder : MasterHolder} (hname : s.holders.lookup name = some holder) :
    step (.isSet name) s =
      (if holder.secret.isSome then .isSet true else .notHeld .notSet, s) := by
  rw [step_eq]
  simp only [execute, outcome_bind, outcome_holder, hname]
  obtain ⟨_ | secret⟩ := holder
  · rfl
  · rfl

theorem step_isReady {holder : MasterHolder} (hname : s.holders.lookup name = some holder) :
    step (.isReady name) s = (.isReady holder.secret.isSome, s) := by
  rw [step_eq]
  simp only [execute, outcome_bind, outcome_holder, hname]
  rfl

/-- An empty holder gives no copy. -/
theorem step_copyMaster_of_unset (hname : s.holders.lookup name = some .empty) {within : String}
    {scope : ScopeId} (hwithin : s.scopes.lookup within = some scope) (target : Option String) :
    step (.copyMaster name within target) s = (.notHeld .notSet, s) := by
  rw [step_eq]
  simp only [execute, outcome_bind, outcome_holder, hname, outcome_scope, hwithin,
    outcome_onVault, MasterHolder.copy, MasterHolder.empty]
  rfl

/-- A holder that is set gives a new text, tracked by the scope. -/
theorem step_copyMaster_of_set {secret : ValueId}
    (hname : s.holders.lookup name = some ⟨some secret⟩) {within : String} {scope : ScopeId}
    (hwithin : s.scopes.lookup within = some scope) (target : Option String) :
    step (.copyMaster name within target) s = (.contents (.text (s.vault.text secret)),
      (s.withVault (s.vault.addTracked scope (.text (s.vault.text secret)))).kept target
        s.vault.cells.size) := by
  have hnew := Vault.contents?_addTracked_size s.vault scope (.text (s.vault.text secret))
  have hshown := outcome_present
    (s := s.withVault (s.vault.addTracked scope (.text (s.vault.text secret)))) hnew target
  have hrun : outcome (execute (.copyMaster name within target)) s =
      outcome (present target s.vault.cells.size)
        (s.withVault (s.vault.addTracked scope (.text (s.vault.text secret)))) := by
    simp only [execute, outcome_bind, outcome_holder, hname, outcome_scope, hwithin,
      outcome_onVault, MasterHolder.copy]
    rfl
  rw [step_eq, hrun, hshown]

/-! ### Runs -/

/-- What a command makes of what a holder holds: `none` if there is no holder under the name, and
of a holder the value that it was first set to, if it was. -/
def masterStep (name : String) (held : Option (Option String)) : Command → Option (Option String)
  | .newHolder other => if other = name then some none else held
  | .setMaster other value =>
    if other = name then held.map fun first => first.or (some value) else held
  | _ => held

/-- What the holder under a name holds after a list of commands. -/
def masterAfter (name : String) (commands : List Command) : Option (Option String) :=
  commands.foldl (masterStep name) none

/-- The holder under a name, as far as there is one, holds a value. -/
def Holds (s : Session) (name : String) : Option (Option String) → Prop
  | none => s.holders.lookup name = none
  | some none => s.holders.lookup name = some .empty
  | some (some value) => ∃ secret, s.holders.lookup name = some ⟨some secret⟩ ∧
      s.vault.contents? secret = some (.text value)

/-- A command that leaves the holder under a name as it is leaves it what it holds. -/
theorem Holds.of_lookup_eq {command : Command} {held : Option (Option String)}
    (h : Accounts [] [] s) (hs : s.Secluded) (hholds : s.Holds name held)
    (hlookup : (step command s).2.holders.lookup name = s.holders.lookup name) :
    (step command s).2.Holds name held := by
  rcases held with _ | _ | value
  · exact hlookup.trans hholds
  · exact hlookup.trans hholds
  · obtain ⟨secret, hname, hcontents⟩ := hholds
    have hafter := hlookup.trans hname
    refine ⟨secret, hafter, ?_⟩
    rw [contents?_secret_step h hs (mem_secrets_of_lookup hname rfl)
      (mem_secrets_of_lookup hafter rfl)]
    exact hcontents

/-- The command makes or sets the holder under a name. -/
def Command.Sets (name : String) : Command → Prop
  | .newHolder other => other = name
  | .setMaster other _ => other = name
  | _ => False

/-- Every other command leaves what stands under the name. -/
theorem lookup_step_of_not_sets {command : Command} (h : ¬ command.Sets name) (s : Session) :
    (step command s).2.holders.lookup name = s.holders.lookup name := by
  cases command with
  | newHolder other =>
    rw [step_newHolder]
    exact lookup_setEntry_of_ne (Ne.symm h) _ _
  | setMaster other value =>
    cases hother : s.holders.lookup other with
    | none => rw [step_setMaster_of_none hother]
    | some holder =>
      obtain ⟨_ | secret⟩ := holder
      · rw [step_setMaster_of_unset hother]
        exact lookup_setEntry_of_ne (Ne.symm h) _ _
      · rw [step_setMaster_of_set hother rfl]
  | _ =>
    apply congrArg (List.lookup name)
    apply holders_step
    exact not_false

/-- After a command the holder holds what the command makes of what it held. -/
theorem holds_step {held : Option (Option String)} (h : Accounts [] [] s) (hs : s.Secluded)
    (hholds : s.Holds name held) (command : Command) :
    (step command s).2.Holds name (masterStep name held command) := by
  cases command with
  | newHolder other =>
    by_cases heq : other = name
    · subst heq
      rw [masterStep, if_pos rfl, step_newHolder]
      exact lookup_setEntry_self _ _ _
    · rw [masterStep, if_neg heq]
      have hsets : ¬ (Command.newHolder other).Sets name := heq
      exact hholds.of_lookup_eq h hs (lookup_step_of_not_sets hsets s)
  | setMaster other value =>
    by_cases heq : other = name
    · subst heq
      rw [masterStep, if_pos rfl]
      rcases held with _ | _ | first
      · rw [step_setMaster_of_none hholds]
        exact hholds
      · rw [step_setMaster_of_unset hholds]
        exact ⟨_, lookup_setEntry_self _ _ _, Vault.contents?_addCell_size _ _⟩
      · obtain ⟨secret, hname, hcontents⟩ := hholds
        rw [step_setMaster_of_set hname rfl]
        exact ⟨secret, hname, hcontents⟩
    · rw [masterStep, if_neg heq]
      have hsets : ¬ (Command.setMaster other value).Sets name := heq
      exact hholds.of_lookup_eq h hs (lookup_step_of_not_sets hsets s)
  | _ =>
    refine hholds.of_lookup_eq h hs (lookup_step_of_not_sets ?_ s)
    exact not_false

/-- After a run the holder under a name holds the value it was first set to. -/
theorem holds_run (nonces : Nat → Gcm.Nonce) (commands : List Command) (name : String) :
    (run commands (empty nonces)).Holds name (masterAfter name commands) := by
  induction commands using List.reverseRecOn with
  | nil => rfl
  | append_singleton commands command ih =>
    have hafter : masterAfter name (commands ++ [command]) =
        masterStep name (masterAfter name commands) command := by
      rw [masterAfter, List.foldl_append]
      rfl
    rw [run_concat, hafter]
    exact holds_step (accounts_run (accounts_empty nonces) commands) (secluded_run nonces commands)
      ih command

/-! ### What the client sees -/

/-- The holder under a name is empty: it says so, gives no copy and leaves everything as it is, and
takes the first value it is set to. -/
structure Unset (s : Session) (name : String) : Prop where
  isSet : step (.isSet name) s = (.notHeld .notSet, s)
  isReady : step (.isReady name) s = (.isReady false, s)
  copy : ∀ {within : String} {scope : ScopeId} (target : Option String),
    s.scopes.lookup within = some scope →
    step (.copyMaster name within target) s = (.notHeld .notSet, s)
  set : ∀ value, (step (.setMaster name value) s).1 = .masterSet

/-- The holder under a name guards a value: it says so, takes no other, and gives out copies of its
own only. -/
structure Guards (s : Session) (name value : String) (secret : ValueId) : Prop where
  isSet : step (.isSet name) s = (.isSet true, s)
  isReady : step (.isReady name) s = (.isReady true, s)
  set : ∀ other, step (.setMaster name other) s = (.notHeld .alreadySet, s)
  /-- The secret has the value, stands under no name, and is tracked by no scope. -/
  stored : s.vault.contents? secret = some (.text value) ∧ secret ∈ s.held ∧
    secret ∉ s.handleIds ∧ ∀ scope, secret ∉ s.tracked scope
  /-- A copy has the value. It is neither the secret nor anything the client has or a scope tracks,
  and the scope given is the one that tracks it. -/
  copy : ∀ {within : String} {scope : ScopeId} (target : Option String),
    s.scopes.lookup within = some scope →
    ∃ id t, step (.copyMaster name within target) s = (.contents (.text value), t) ∧
      id ≠ secret ∧ id ∉ s.held ∧ (∀ other, id ∉ s.tracked other) ∧
      t.tracked scope = insert id (s.tracked scope) ∧
      (∀ other, other ≠ scope → t.tracked other = s.tracked other) ∧
      ∀ under, target = some under →
        t.handles.lookup under = some id ∧ t.vault.contents? id = some (.text value)
  /-- No command that leaves the name alone changes the secret. -/
  kept : ∀ command, command ≠ .newHolder name →
    (step command s).2.holders.lookup name = some ⟨some secret⟩ ∧
      (step command s).2.vault.contents? secret = some (.text value)

/-- The copy that a reader gets. -/
theorem copied_of_holds (h : Accounts [] [] s) {secret : ValueId} {value : String}
    (hname : s.holders.lookup name = some ⟨some secret⟩)
    (hcontents : s.vault.contents? secret = some (.text value)) {within : String}
    {scope : ScopeId} (target : Option String) (hwithin : s.scopes.lookup within = some scope) :
    ∃ id t, step (.copyMaster name within target) s = (.contents (.text value), t) ∧
      id ≠ secret ∧ id ∉ s.held ∧ (∀ other, id ∉ s.tracked other) ∧
      t.tracked scope = insert id (s.tracked scope) ∧
      (∀ other, other ≠ scope → t.tracked other = s.tracked other) ∧
      ∀ under, target = some under →
        t.handles.lookup under = some id ∧ t.vault.contents? id = some (.text value) := by
  have hstep := step_copyMaster_of_set hname hwithin target
  rw [Vault.text_of_contents? hcontents] at hstep
  have hsecret : secret ∈ s.held := List.mem_append_right _ (mem_secrets_of_lookup hname rfl)
  have hfresh : s.vault.cells.size ∉ s.held := fun hid => Nat.lt_irrefl _ (h.lt_of_mem_held hid)
  let v := s.vault.addTracked scope (.text value)
  -- keeping the copy touches no scope
  have htracked (other : ScopeId) : ((s.withVault v).kept target s.vault.cells.size).tracked other =
      (v.members other).toFinset := by
    rw [tracked, Vault.members_congr (congrArg (·[other]?) (kept_vault_scopes _ _ _))]
    rfl
  have hmembers : v.members scope =
      Vault.addMembers (s.vault.members scope) [s.vault.cells.size] := by
    have hscope : scope < (s.vault.addCell ⟨.text value, 1⟩).scopes.size :=
      h.lt_of_mem_heldScopes (mem_map_snd_of_lookup hwithin)
    exact (Vault.members_setMembers_self _ _ _).trans (if_pos hscope)
  refine ⟨s.vault.cells.size, _, hstep, ?_, hfresh, ?_, ?_, ?_, ?_⟩
  · rintro rfl
    exact hfresh hsecret
  · intro other hid
    exact Nat.lt_irrefl _ (h.made other _ (mem_tracked.1 hid))
  · rw [htracked, hmembers, toFinset_addMembers, Finset.union_comm]
    rfl
  · intro other hother
    have hsame : v.members other = s.vault.members other :=
      Vault.members_congr (Vault.scopes_setMembers_of_ne _ hother _)
    rw [htracked, hsame]
    rfl
  · rintro under rfl
    refine ⟨lookup_setEntry_self _ _ _, ?_⟩
    have hnew : v.contents? s.vault.cells.size = some (.text value) :=
      Vault.contents?_addTracked_size s.vault scope (.text value)
    rw [kept]
    cases hold : (s.withVault v).handles.lookup under with
    | none => exact hnew
    | some old =>
      have hne : s.vault.cells.size ≠ old := by
        rintro rfl
        exact hfresh (List.mem_append_left _ (mem_map_snd_of_lookup hold))
      exact (Vault.contents?_letGo_of_ne hne).trans hnew

/-- A holder that holds nothing is empty. -/
theorem unset_of_holds (hname : s.holders.lookup name = some .empty) : s.Unset name where
  isSet := step_isSet hname
  isReady := step_isReady hname
  copy := fun target hwithin => step_copyMaster_of_unset hname hwithin target
  set := fun value => by rw [step_setMaster_of_unset hname]

/-- A holder that holds a value guards it. -/
theorem guards_of_holds (h : Accounts [] [] s) (hs : s.Secluded) {secret : ValueId}
    {value : String} (hname : s.holders.lookup name = some ⟨some secret⟩)
    (hcontents : s.vault.contents? secret = some (.text value)) :
    s.Guards name value secret where
  isSet := step_isSet hname
  isReady := step_isReady hname
  set := step_setMaster_of_set hname rfl
  stored := by
    have hsecret := mem_secrets_of_lookup hname rfl
    refine ⟨hcontents, List.mem_append_right _ hsecret, fun hhandle => ?_, fun scope hmember => ?_⟩
    · exact hs secret hsecret (.inl hhandle)
    · exact hs secret hsecret (.inr ⟨scope, mem_tracked.1 hmember⟩)
  copy := copied_of_holds h hname hcontents
  kept := by
    intro command hother
    have hlookup : (step command s).2.holders.lookup name = s.holders.lookup name := by
      by_cases hsets : command.Sets name
      · cases command with
        | newHolder other => exact absurd (congrArg Command.newHolder hsets) hother
        | setMaster other second =>
          cases hsets
          rw [step_setMaster_of_set hname rfl]
        | _ => exact hsets.elim
      · exact lookup_step_of_not_sets hsets s
    have hafter := hlookup.trans hname
    refine ⟨hafter, ?_⟩
    rw [contents?_secret_step h hs (mem_secrets_of_lookup hname rfl)
      (mem_secrets_of_lookup hafter rfl)]
    exact hcontents

/-- Along every run of commands the holder under a name is there if it was made, is empty until it
is first set, and from then on guards the value of that setting until another holder is made under
the name. -/
theorem master_along_run (nonces : Nat → Gcm.Nonce) (commands : List Command) (name : String) :
    let s := run commands (empty nonces)
    match masterAfter name commands with
    | none => s.holders.lookup name = none
    | some none => s.Unset name
    | some (some value) => ∃ secret, s.holders.lookup name = some ⟨some secret⟩ ∧
        s.Guards name value secret := by
  intro s
  have h := accounts_run (accounts_empty nonces) commands
  have hs := secluded_run nonces commands
  have hholds := holds_run nonces commands name
  generalize masterAfter name commands = held at hholds
  rcases held with _ | _ | value
  · exact hholds
  · exact unset_of_holds hholds
  · obtain ⟨secret, hname, hcontents⟩ := hholds
    exact ⟨secret, hname, guards_of_holds h hs hname hcontents⟩

end FieldVault.Session
