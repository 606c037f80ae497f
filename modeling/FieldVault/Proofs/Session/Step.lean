import FieldVault.Proofs.Session.Turn

/-!
# What each command does

Command by command, the reply and the session after it are worked out as far as later results need
them, and every step is found to be one of the ways in which a session can change (`turn_step`).
Commands that are about names nothing stands under change nothing, and so do those that only look
(`onlyLooks_of_looks`).
-/

set_option autoImplicit false

namespace FieldVault.Session

open Wipe
open Vault (Grows)

variable {s : Session} {command : Command} {α : Type}

/-! ### Commands that make a value -/

/-- A command that makes a value and presents it. -/
theorem turn_of_made {scope : ScopeId} {v : Vault} {id : ValueId} {target : Option String}
    (hcalm : s.Calm command)
    (h : outcome (execute command) s = outcome (present target id) (s.withVault v))
    (hscope : v.scopes = s.vault.scopes ∨ s.Names command scope)
    (hgrows : Grows s.handleIds scope [id] s.vault v)
    (hcreates : ∀ contents, v.contents? id = some contents →
      (step command s).1 = .contents contents → s.Creates command contents) :
    Turn s command (step command s).2 := by
  have hhandle : 0 < v.handlesOn id := by
    rw [hgrows.newer id (hgrows.fresh id (List.mem_singleton_self _)), List.count_singleton_self]
    exact Nat.one_pos
  obtain ⟨contents, hcontents⟩ := Vault.exists_contents?_of_handlesOn_pos hhandle
  rw [outcome_present (s := s.withVault v) hcontents] at h
  have hreply : (step command s).1 = .contents contents := by
    rw [step_eq, h]
  exact turn_of_some h
    (.made target hcalm hscope hgrows hcontents (hcreates contents hcontents hreply))

/-- A command that makes a value of its own. -/
theorem turn_of_created (contents : Contents) (target : Option String) (hcalm : s.Calm command)
    (h : outcome (execute command) s = outcome (present target s.vault.cells.size)
      (s.withVault (s.vault.addCell ⟨contents, 1⟩)))
    (hcreates : s.Creates command contents) : Turn s command (step command s).2 := by
  have hgrows : Grows s.handleIds s.vault.scopes.size [s.vault.cells.size] s.vault
      (s.vault.addCell ⟨contents, 1⟩) := (Grows.refl s.vault).addCell contents
  refine turn_of_made hcalm h (.inl rfl) hgrows fun shown hshown _ => ?_
  rw [Vault.contents?_addCell_size] at hshown
  obtain rfl := Option.some.inj hshown
  exact hcreates

theorem turn_newKey (s : Session) (target : Option String) (secret : Bytes)
    (context label : String) : Turn s (.newKey target secret context label)
      (step (.newKey target secret context label) s).2 := by
  have hcalm : s.Calm (.newKey target secret context label) := ⟨nofun, nofun⟩
  cases hkey : Cipher.deriveKey? secret context label with
  | none =>
    refine turn_of_same hcalm (some (.failed .keyDerivation)) ?_
    rw [execute, hkey]
    rfl
  | some key =>
    refine turn_of_created (.key (some key)) target hcalm ?_ ⟨key, hkey, rfl⟩
    rw [execute, hkey]
    rfl

theorem turn_duplicate (s : Session) (source : String) (target : Option String) :
    Turn s (.duplicate source target) (step (.duplicate source target) s).2 := by
  have hcalm : s.Calm (.duplicate source target) := ⟨nofun, nofun⟩
  refine turn_of_found (outcome_handle source s) (fun _ => hcalm) rfl fun id hname hrun => ?_
  exact turn_of_created (.text (s.vault.text id)) target hcalm hrun ⟨id, hname, rfl⟩

theorem turn_copyMaster (s : Session) (name within : String) (target : Option String) :
    Turn s (.copyMaster name within target) (step (.copyMaster name within target) s).2 := by
  have hcalm : s.Calm (.copyMaster name within target) := ⟨nofun, nofun⟩
  refine turn_of_found (outcome_holder name s) (fun _ => hcalm) rfl fun holder hholder hrun => ?_
  refine turn_of_found (outcome_scope within s) (fun _ => hcalm) hrun fun scope hscope hrun => ?_
  rw [outcome_bind, outcome_onVault, MasterHolder.copy] at hrun
  cases hsecret : holder.secret with
  | none =>
    rw [hsecret] at hrun
    exact turn_of_same hcalm (some (.notHeld .notSet)) hrun
  | some secret =>
    rw [hsecret] at hrun
    have hgrows : Grows s.handleIds scope [s.vault.cells.size] s.vault
        (s.vault.addTracked scope (.text (s.vault.text secret))) :=
      (Grows.refl s.vault).addTracked _
    refine turn_of_made hcalm hrun (.inr ⟨within, List.mem_singleton_self _, hscope⟩) hgrows
      fun contents hcontents _ => ?_
    have hnew := Vault.contents?_addTracked_size s.vault scope (.text (s.vault.text secret))
    exact ⟨holder, secret, hholder, hsecret, Option.some.inj (hcontents.symm.trans hnew)⟩

/-- A command that uses a cipher stops or goes on with the result. -/
theorem turn_of_useCipher {call : Call}
    {use : FieldCipher → ScopeId → ValueId → String → VaultM α} {rest : α → SessionM Reply}
    (hcalm : s.Calm command) (hnames : command.scopeNames = [call.scope])
    (h : outcome (execute command) s = outcome (useCipher call use >>= rest) s)
    (hturn : ∀ scope secret, s.Names command scope → secret ∈ s.handleIds →
      outcome (execute command) s =
        outcome (rest ((use call.cipher scope secret call.context).run s.vault).1)
          (s.withVault ((use call.cipher scope secret call.context).run s.vault).2) →
      Turn s command (step command s).2) : Turn s command (step command s).2 := by
  rw [outcome_bind, outcome_useCipher] at h
  cases hscope : s.scopes.lookup call.scope with
  | none =>
    rw [hscope] at h
    exact turn_of_same hcalm none h
  | some scope =>
    cases hsecret : s.handles.lookup call.secret with
    | none =>
      rw [hscope, hsecret] at h
      exact turn_of_same hcalm none h
    | some secret =>
      rw [hscope, hsecret] at h
      exact hturn scope secret ⟨call.scope, hnames ▸ List.mem_singleton_self _, hscope⟩
        (mem_map_snd_of_lookup hsecret) h

theorem turn_encrypt (s : Session) (call : Call) (plaintext : Input Bytes) :
    Turn s (.encrypt call plaintext) (step (.encrypt call plaintext) s).2 := by
  have hcalm : s.Calm (.encrypt call plaintext) := ⟨nofun, nofun⟩
  have hlook := (onlyLooks_inputBytes plaintext).outcome_eq s
  refine turn_of_found hlook (fun _ => hcalm) rfl fun input _ hinput => ?_
  refine turn_of_useCipher hcalm rfl hinput fun scope secret hscope hsecret h => ?_
  have hgrows := call.cipher.grows_encrypt scope call.context s.vault hsecret input
  exact turn_of_made hcalm h (.inr hscope) (hgrows.addCell _) fun _ _ hreply => hreply

theorem turn_encryptText (s : Session) (call : Call) (plaintext : Input String) :
    Turn s (.encryptText call plaintext) (step (.encryptText call plaintext) s).2 := by
  have hcalm : s.Calm (.encryptText call plaintext) := ⟨nofun, nofun⟩
  have hlook := (onlyLooks_inputText plaintext).outcome_eq s
  refine turn_of_found hlook (fun _ => hcalm) rfl fun input _ hinput => ?_
  refine turn_of_useCipher hcalm rfl hinput fun scope secret hscope hsecret h => ?_
  have hgrows := call.cipher.grows_encryptText scope call.context s.vault hsecret input
  exact turn_of_made hcalm h (.inr hscope) (hgrows.addCell _) fun _ _ hreply => hreply

theorem turn_decrypt (s : Session) (call : Call) (envelope : Input Bytes) :
    Turn s (.decrypt call envelope) (step (.decrypt call envelope) s).2 := by
  have hcalm : s.Calm (.decrypt call envelope) := ⟨nofun, nofun⟩
  have hlook := (onlyLooks_inputBytes envelope).outcome_eq s
  refine turn_of_found hlook (fun _ => hcalm) rfl fun input _ hinput => ?_
  refine turn_of_useCipher hcalm rfl hinput fun scope secret hscope hsecret h => ?_
  have hgrows := call.cipher.grows_decrypt scope call.context s.vault hsecret input
  exact turn_of_made hcalm h (.inr hscope) hgrows fun _ _ hreply => hreply

theorem turn_decryptText (s : Session) (call : Call) (envelope : Input String) :
    Turn s (.decryptText call envelope) (step (.decryptText call envelope) s).2 := by
  have hcalm : s.Calm (.decryptText call envelope) := ⟨nofun, nofun⟩
  have hlook := (onlyLooks_inputText envelope).outcome_eq s
  refine turn_of_found hlook (fun _ => hcalm) rfl fun input _ hinput => ?_
  refine turn_of_useCipher hcalm rfl hinput fun scope secret hscope hsecret h => ?_
  have hgrows := call.cipher.grows_decryptText scope call.context s.vault hsecret input
  exact turn_of_made hcalm h (.inr hscope) hgrows fun _ _ hreply => hreply

/-- A command that shows the result of a strict decryption. -/
theorem turn_of_result {scope : ScopeId} {target : Option String}
    {work : Except Cipher.Fault ValueId × Vault} (hcalm : s.Calm command)
    (hscope : s.Names command scope)
    (hgrows : Grows s.handleIds scope (FieldCipher.handed work.1) s.vault work.2)
    (h : outcome (execute command) s =
      outcome (presentResult target work.1) (s.withVault work.2))
    (hcreates : ∀ contents, (step command s).1 = .contents contents →
      s.Creates command contents) : Turn s command (step command s).2 := by
  obtain ⟨fault | id, v⟩ := work
  · exact turn_of_some h (.worked hcalm hscope hgrows)
  · exact turn_of_made hcalm h (.inr hscope) hgrows fun contents _ => hcreates contents

theorem turn_tryDecrypt (s : Session) (call : Call) (envelope : Input Bytes) :
    Turn s (.tryDecrypt call envelope) (step (.tryDecrypt call envelope) s).2 := by
  have hcalm : s.Calm (.tryDecrypt call envelope) := ⟨nofun, nofun⟩
  have hlook := (onlyLooks_inputBytes envelope).outcome_eq s
  refine turn_of_found hlook (fun _ => hcalm) rfl fun input _ hinput => ?_
  refine turn_of_useCipher hcalm rfl hinput fun scope secret hscope hsecret h => ?_
  have hgrows := call.cipher.grows_tryDecrypt scope call.context s.vault hsecret input
  exact turn_of_result hcalm hscope hgrows h fun _ hreply => hreply

theorem turn_tryDecryptText (s : Session) (call : Call) (envelope : Input String) :
    Turn s (.tryDecryptText call envelope) (step (.tryDecryptText call envelope) s).2 := by
  have hcalm : s.Calm (.tryDecryptText call envelope) := ⟨nofun, nofun⟩
  have hlook := (onlyLooks_inputText envelope).outcome_eq s
  refine turn_of_found hlook (fun _ => hcalm) rfl fun input _ hinput => ?_
  refine turn_of_useCipher hcalm rfl hinput fun scope secret hscope hsecret h => ?_
  have hgrows := call.cipher.grows_tryDecryptText scope call.context s.vault hsecret input
  exact turn_of_result hcalm hscope hgrows h fun _ hreply => hreply

/-! ### Commands on handles -/

theorem turn_copyHandle (s : Session) (source : String) (target : Option String) :
    Turn s (.copyHandle source target) (step (.copyHandle source target) s).2 := by
  have hcalm : s.Calm (.copyHandle source target) := ⟨nofun, nofun⟩
  refine turn_of_found (outcome_handle source s) (fun _ => hcalm) rfl fun id hname hrun => ?_
  rw [outcome_bind, outcome_onVault, Vault.retain_run] at hrun
  cases hcontents : s.vault.contents? id with
  | none =>
    rw [Vault.retained_eq_self hcontents] at hrun
    exact turn_of_same hcalm (some .done) (hrun.trans (outcome_present_none hcontents target))
  | some contents =>
    rw [← Vault.contents?_retained s.vault id] at hcontents
    exact turn_of_some (hrun.trans (outcome_present (s := s.withVault _) hcontents target))
      (.copied target hcalm (mem_map_snd_of_lookup hname))

theorem turn_dropHandle (s : Session) (name : String) :
    Turn s (.dropHandle name) (step (.dropHandle name) s).2 := by
  have hcalm : s.Calm (.dropHandle name) := ⟨nofun, nofun⟩
  refine turn_of_found (outcome_handle name s) (fun _ => hcalm) rfl fun id hname hrun => ?_
  exact turn_of_some hrun (.dropped hcalm hname)

theorem turn_destroyKey (s : Session) (name : String) :
    Turn s (.destroyKey name) (step (.destroyKey name) s).2 := by
  have hcalm : s.handles.lookup name = none → s.Calm (.destroyKey name) := fun hname =>
    ⟨nofun, fun _ h => Command.destroyKey.inj h ▸ hname⟩
  refine turn_of_found (outcome_handle name s) hcalm rfl fun id hname hrun => ?_
  exact turn_of_some hrun (.destroyed rfl hname)

/-! ### Commands on scopes -/

/-- A new scope under a name. -/
theorem step_beginScope (s : Session) (name : String) :
    step (.beginScope name) s =
      (.done, (s.withVault s.vault.scopeBegun).keptScope name s.vault.scopes.size) := by
  rw [step_eq]
  simp only [execute, outcome_bind, outcome_onVault, Vault.beginScope_run, outcome_keepScope]
  rfl

theorem turn_beginScope (s : Session) (name : String) :
    Turn s (.beginScope name) (step (.beginScope name) s).2 := by
  rw [step_beginScope]
  exact .begun ⟨nofun, nofun⟩ (List.mem_singleton_self _)

/-- Another name for a scope. -/
theorem step_copyScope {name : String} {scope : ScopeId} (hname : s.scopes.lookup name = some scope)
    (target : String) : step (.copyScope name target) s =
      (.done, (s.withVault (s.vault.scopeRetained scope)).keptScope target scope) := by
  rw [step_eq]
  simp only [execute, outcome_bind, outcome_scope, hname, outcome_onVault,
    Vault.retainScope_run, outcome_keepScope]
  rfl

theorem turn_copyScope (s : Session) (name target : String) :
    Turn s (.copyScope name target) (step (.copyScope name target) s).2 := by
  have hcalm : s.Calm (.copyScope name target) := ⟨nofun, nofun⟩
  refine turn_of_found (outcome_scope name s) (fun _ => hcalm) rfl fun scope hname _ => ?_
  rw [step_copyScope hname]
  exact .scopeCopied hcalm (List.mem_cons_of_mem _ (List.mem_singleton_self _)) hname

theorem turn_dropScope (s : Session) (name : String) :
    Turn s (.dropScope name) (step (.dropScope name) s).2 := by
  have hcalm : s.Calm (.dropScope name) := ⟨nofun, nofun⟩
  refine turn_of_found (outcome_scope name s) (fun _ => hcalm) rfl fun scope hname hrun => ?_
  exact turn_of_some hrun (.scopeDropped hcalm (List.mem_singleton_self _) hname)

/-- Flushing a scope that stands under a name. -/
theorem step_flush {name : String} {scope : ScopeId} (hname : s.scopes.lookup name = some scope) :
    step (.flush name) s =
      (.flushed ((Vault.flush scope).run s.vault).1, s.withVault (s.vault.flushed scope)) := by
  rw [step_eq]
  simp only [execute, outcome_bind, outcome_scope, hname, outcome_onVault]
  rfl

theorem turn_flush (s : Session) (name : String) :
    Turn s (.flush name) (step (.flush name) s).2 := by
  have hcalm : s.scopes.lookup name = none → s.Calm (.flush name) := fun hname =>
    ⟨fun _ h => Command.flush.inj h ▸ hname, nofun⟩
  refine turn_of_found (outcome_scope name s) hcalm rfl fun scope hname _ => ?_
  rw [step_flush hname]
  exact .flushed rfl hname

/-- Tracking values that stand under names is work that only adds. -/
theorem grows_track (s : Session) (scope : ScopeId) {ids : List ValueId}
    (hids : ∀ id ∈ ids, id ∈ s.handleIds) :
    Grows s.handleIds scope [] s.vault (s.vault.track scope ids) :=
  (Grows.refl s.vault).track fun id hid => .inl (hids id hid)

/-- What stands under names in a resolved item stands under names. -/
theorem mem_handleIds_of_resolve? {names : Item String} {item : Item ValueId}
    (h : (names.resolve? fun name => s.handles.lookup name) = some item) :
    ∀ id ∈ item.leaves, id ∈ s.handleIds := by
  intro id hid
  obtain ⟨name, hname⟩ := Item.exists_of_mem_resolve? h hid
  exact mem_map_snd_of_lookup hname

/-- Tracking an item of which all names are known. -/
theorem step_mark {name : String} {scope : ScopeId} (hname : s.scopes.lookup name = some scope)
    {names : Item String} {item : Item ValueId}
    (hitem : (names.resolve? fun name => s.handles.lookup name) = some item) :
    step (.mark name names) s = (.marked ((Vault.mark scope item).run s.vault).1,
      s.withVault (s.vault.track scope item.leaves)) := by
  rw [step_eq]
  simp only [execute, outcome_bind, outcome_scope, hname, outcome_item, hitem, outcome_onVault]
  rfl

theorem turn_mark (s : Session) (name : String) (names : Item String) :
    Turn s (.mark name names) (step (.mark name names) s).2 := by
  have hcalm : s.Calm (.mark name names) := ⟨nofun, nofun⟩
  refine turn_of_found (outcome_scope name s) (fun _ => hcalm) rfl fun scope hname hrun => ?_
  refine turn_of_found (outcome_item names s) (fun _ => hcalm) hrun fun item hitem _ => ?_
  rw [step_mark hname hitem]
  exact .worked hcalm ⟨name, List.mem_singleton_self _, hname⟩
    (s.grows_track scope (mem_handleIds_of_resolve? hitem))

/-- Tracking an untyped value of which all names are known. -/
theorem step_markUntyped {name : String} {scope : ScopeId}
    (hname : s.scopes.lookup name = some scope) {names : Untyped String}
    {value : Untyped ValueId}
    (hvalue : (names.resolve? fun name => s.handles.lookup name) = some value) :
    step (.markUntyped name names) s = match value.classify with
      | .error fault => (.notWipeable fault, s)
      | .ok item => (.marked ((Vault.mark scope item).run s.vault).1,
          s.withVault (s.vault.track scope item.leaves)) := by
  rw [step_eq]
  simp only [execute, outcome_bind, outcome_scope, hname, outcome_untyped, hvalue,
    outcome_onVault, Vault.markUntyped]
  cases value.classify with
  | error fault => rfl
  | ok item => rfl

theorem turn_markUntyped (s : Session) (name : String) (names : Untyped String) :
    Turn s (.markUntyped name names) (step (.markUntyped name names) s).2 := by
  have hcalm : s.Calm (.markUntyped name names) := ⟨nofun, nofun⟩
  refine turn_of_found (outcome_scope name s) (fun _ => hcalm) rfl fun scope hname hrun => ?_
  refine turn_of_found (outcome_untyped names s) (fun _ => hcalm) hrun fun value hvalue _ => ?_
  rw [step_markUntyped hname hvalue]
  cases hitem : value.classify with
  | error fault => exact .idle hcalm
  | ok item =>
    refine .worked hcalm ⟨name, List.mem_singleton_self _, hname⟩
      (s.grows_track scope fun id hid => ?_)
    obtain ⟨under, hunder⟩ := Untyped.exists_of_mem_classify hvalue hitem hid
    exact mem_map_snd_of_lookup hunder

/-- Tracking an item in place of another, of which all names are known: the other has to be a single
value that is tracked. -/
theorem step_replace {name : String} {scope : ScopeId} (hname : s.scopes.lookup name = some scope)
    {currentNames replacementNames : Item String} {current replacement : Item ValueId}
    (hcurrent : (currentNames.resolve? fun name => s.handles.lookup name) = some current)
    (hreplacement :
      (replacementNames.resolve? fun name => s.handles.lookup name) = some replacement) :
    step (.replace name currentNames replacementNames) s = match current.single? with
      | none => (.replaced false, s)
      | some id =>
        if (s.vault.members scope).contains id then
          (.replaced true, s.withVault (s.vault.setMembers scope
            (Vault.addMembers ((s.vault.members scope).erase id) replacement.leaves)))
        else (.replaced false, s) := by
  rw [step_eq]
  simp only [execute, outcome_bind, outcome_scope, hname, outcome_item, hcurrent, hreplacement,
    outcome_onVault]
  cases hsingle : current.single? with
  | none =>
    have hrun : (Vault.replace scope current replacement).run s.vault = (false, s.vault) := by
      change Vault.replace scope current replacement s.vault = _
      rw [Vault.replace, hsingle]
    rw [hrun]
    rfl
  | some id =>
    have hrun : (Vault.replace scope current replacement).run s.vault =
        if (s.vault.members scope).contains id then
          (true, s.vault.setMembers scope
            (Vault.addMembers ((s.vault.members scope).erase id) replacement.leaves))
        else (false, s.vault) := by
      change Vault.replace scope current replacement s.vault = _
      rw [Vault.replace, hsingle]
    rw [hrun]
    by_cases hmem : (s.vault.members scope).contains id
    · simp only [if_pos hmem]
      rfl
    · simp only [if_neg hmem]
      rfl

theorem turn_replace (s : Session) (name : String) (current replacement : Item String) :
    Turn s (.replace name current replacement) (step (.replace name current replacement) s).2 := by
  have hcalm : s.Calm (.replace name current replacement) := ⟨nofun, nofun⟩
  refine turn_of_found (outcome_scope name s) (fun _ => hcalm) rfl fun scope hname hrun => ?_
  refine turn_of_found (outcome_item current s) (fun _ => hcalm) hrun fun out hcurrent hrun => ?_
  refine turn_of_found (outcome_item replacement s) (fun _ => hcalm) hrun
    fun into hreplacement _ => ?_
  rw [step_replace hname hcurrent hreplacement]
  cases out.single? with
  | none => exact .idle hcalm
  | some id =>
    dsimp only
    split
    · exact .replaced hcalm ⟨name, List.mem_singleton_self _, hname⟩
        (mem_handleIds_of_resolve? hreplacement)
    · exact .idle hcalm

/-! ### Commands on holders -/

theorem turn_newHolder (s : Session) (name : String) :
    Turn s (.newHolder name) (step (.newHolder name) s).2 := by
  have hrun : outcome (execute (.newHolder name)) s = (some .done, s.keptHolder name .empty) := by
    simp only [execute, outcome_bind, outcome_keepHolder]
    rfl
  exact turn_of_some hrun (.holderMade name ⟨nofun, nofun⟩)

theorem turn_setMaster (s : Session) (name value : String) :
    Turn s (.setMaster name value) (step (.setMaster name value) s).2 := by
  have hcalm : s.Calm (.setMaster name value) := ⟨nofun, nofun⟩
  refine turn_of_found (outcome_holder name s) (fun _ => hcalm) rfl fun holder hholder hrun => ?_
  rw [outcome_bind, outcome_onVault, MasterHolder.set] at hrun
  cases hsecret : holder.secret with
  | some secret =>
    rw [hsecret] at hrun
    exact turn_of_same hcalm (some (.notHeld .alreadySet)) hrun
  | none =>
    rw [hsecret] at hrun
    exact turn_of_some hrun (.masterSet hcalm hholder hsecret rfl)

/-! ### Commands that only look -/

/-- The commands that only look at the session. -/
def Command.Looks : Command → Prop
  | .inspect _ => True
  | .sameValue _ _ => True
  | .describe _ => True
  | .sameScope _ _ => True
  | .describeScope _ => True
  | .isTracked _ _ => True
  | .isSet _ => True
  | .isReady _ => True
  | .describeHolder _ => True
  | _ => False

/-- Asking whether a scope tracks an item of which all names are known. -/
theorem outcome_isTracked {name : String} {scope : ScopeId}
    (hname : s.scopes.lookup name = some scope) {names : Item String} {item : Item ValueId}
    (hitem : (names.resolve? fun name => s.handles.lookup name) = some item) :
    outcome (execute (.isTracked name names)) s =
      (some (.tracked (s.vault.isTracked scope item)), s) := by
  simp only [execute, outcome_bind, outcome_scope, hname, outcome_item, hitem, outcome_get]
  rfl

/-- Such a command leaves the session as it is. -/
theorem onlyLooks_of_looks (hlooks : command.Looks) : OnlyLooks (execute command) := by
  cases command with
  | inspect name =>
    refine onlyLooks_bind (onlyLooks_handle name) fun id => ?_
    refine onlyLooks_bind onlyLooks_get fun s => ?_
    cases s.vault.contents? id with
    | none => exact onlyLooks_pure _
    | some contents => exact onlyLooks_pure _
  | sameValue first second =>
    exact onlyLooks_bind (onlyLooks_handle first) fun _ =>
      onlyLooks_bind (onlyLooks_handle second) fun _ => onlyLooks_pure _
  | describe name =>
    refine onlyLooks_bind (onlyLooks_handle name) fun id => ?_
    refine onlyLooks_bind onlyLooks_get fun s => ?_
    cases s.vault.contents? id with
    | none => exact onlyLooks_pure _
    | some contents => exact onlyLooks_pure _
  | sameScope first second =>
    exact onlyLooks_bind (onlyLooks_scope first) fun _ =>
      onlyLooks_bind (onlyLooks_scope second) fun _ => onlyLooks_pure _
  | describeScope name =>
    exact onlyLooks_bind (onlyLooks_scope name) fun _ =>
      onlyLooks_bind onlyLooks_get fun _ => onlyLooks_pure _
  | isTracked name names =>
    exact onlyLooks_bind (onlyLooks_scope name) fun _ =>
      onlyLooks_bind (onlyLooks_item names) fun _ =>
        onlyLooks_bind onlyLooks_get fun _ => onlyLooks_pure _
  | isSet name =>
    refine onlyLooks_bind (onlyLooks_holder name) fun holder => ?_
    cases holder.isSet with
    | error fault => exact onlyLooks_pure _
    | ok yes => exact onlyLooks_pure _
  | isReady name =>
    exact onlyLooks_bind (onlyLooks_holder name) fun _ => onlyLooks_pure _
  | describeHolder name =>
    exact onlyLooks_bind (onlyLooks_holder name) fun _ => onlyLooks_pure _
  | _ => exact hlooks.elim

theorem turn_of_looks (hlooks : command.Looks) (s : Session) :
    Turn s command (step command s).2 := by
  have hcalm : s.Calm command := by
    constructor
    · rintro name rfl
      exact hlooks.elim
    · rintro name rfl
      exact hlooks.elim
  exact turn_of_same hcalm _ ((onlyLooks_of_looks hlooks).outcome_eq s)

/-! ### Every step -/

/-- Every step changes the session in one of these ways. -/
theorem turn_step (s : Session) (command : Command) : Turn s command (step command s).2 := by
  cases command with
  | newText target value => exact turn_of_created (.text value) target ⟨nofun, nofun⟩ rfl rfl
  | newBytes target value => exact turn_of_created (.bytes value) target ⟨nofun, nofun⟩ rfl rfl
  | newKey target secret context label => exact turn_newKey s target secret context label
  | copyHandle source target => exact turn_copyHandle s source target
  | duplicate source target => exact turn_duplicate s source target
  | dropHandle name => exact turn_dropHandle s name
  | destroyKey name => exact turn_destroyKey s name
  | beginScope name => exact turn_beginScope s name
  | copyScope name target => exact turn_copyScope s name target
  | dropScope name => exact turn_dropScope s name
  | mark name item => exact turn_mark s name item
  | markUntyped name value => exact turn_markUntyped s name value
  | replace name current replacement => exact turn_replace s name current replacement
  | flush name => exact turn_flush s name
  | newHolder name => exact turn_newHolder s name
  | setMaster name value => exact turn_setMaster s name value
  | copyMaster name within target => exact turn_copyMaster s name within target
  | encrypt call plaintext => exact turn_encrypt s call plaintext
  | encryptText call plaintext => exact turn_encryptText s call plaintext
  | decrypt call envelope => exact turn_decrypt s call envelope
  | decryptText call envelope => exact turn_decryptText s call envelope
  | tryDecrypt call envelope => exact turn_tryDecrypt s call envelope
  | tryDecryptText call envelope => exact turn_tryDecryptText s call envelope
  | _ =>
    apply turn_of_looks
    trivial

end FieldVault.Session
