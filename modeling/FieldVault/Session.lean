import FieldVault.Cipher
import FieldVault.Master

/-!
# Sessions

A session is a client of the vault. It keeps guarded values, scopes and holders of a master
secret under names of its own, and every command acts on what stands under a name. A name that
is given again lets go of what it stood for; a result that is given no name is let go as soon as
it has been shown. A command that mentions a name nothing stands under changes nothing.
-/

set_option autoImplicit false

namespace FieldVault

open Wipe

/-- What a client keeps under names, and the vault it keeps it in. -/
structure Session where
  vault : Vault
  handles : List (String × ValueId)
  scopes : List (String × ScopeId)
  holders : List (String × MasterHolder)

namespace Session

/-- The input of a cipher: given with the command, or the contents of a value. -/
inductive Input (α : Type) where
  | given (value : α)
  | held (name : String)

/-- The names and parameters of a use of a cipher. -/
structure Call where
  cipher : FieldCipher
  scope : String
  secret : String
  context : String
  /-- The name for the result. -/
  target : Option String

/-- What a client can ask for. -/
inductive Command where
  | newText (target : Option String) (value : String)
  | newBytes (target : Option String) (value : Bytes)
  | newKey (target : Option String) (secret : Bytes) (context label : String)
  | copyHandle (source : String) (target : Option String)
  | duplicate (source : String) (target : Option String)
  | dropHandle (name : String)
  | inspect (name : String)
  | destroyKey (name : String)
  | sameValue (first second : String)
  | describe (name : String)
  | beginScope (scope : String)
  | copyScope (scope target : String)
  | dropScope (scope : String)
  | sameScope (first second : String)
  | describeScope (scope : String)
  | mark (scope : String) (item : Item String)
  | markUntyped (scope : String) (value : Untyped String)
  | replace (scope : String) (current replacement : Item String)
  | isTracked (scope : String) (item : Item String)
  | flush (scope : String)
  | newHolder (holder : String)
  | setMaster (holder value : String)
  | copyMaster (holder scope : String) (target : Option String)
  | isSet (holder : String)
  | isReady (holder : String)
  | describeHolder (holder : String)
  | encrypt (call : Call) (plaintext : Input Bytes)
  | encryptText (call : Call) (plaintext : Input String)
  | decrypt (call : Call) (envelope : Input Bytes)
  | decryptText (call : Call) (envelope : Input String)
  | tryDecrypt (call : Call) (envelope : Input Bytes)
  | tryDecryptText (call : Call) (envelope : Input String)

/-- The answer to a command. -/
inductive Reply where
  | done
  | dropped
  | contents (contents : Contents)
  | destroyed (yes : Bool)
  | same (yes : Bool)
  | description (text : String)
  | marked (count : Nat)
  | replaced (yes : Bool)
  | tracked (yes : Bool)
  | flushed (report : FlushReport)
  | masterSet
  | isSet (yes : Bool)
  | isReady (yes : Bool)
  | notWipeable (fault : Wipe.Fault)
  | notHeld (fault : MasterHolder.Fault)
  | failed (fault : Cipher.Fault)
  /-- Nothing stands under a name that the command mentions. -/
  | unknownName

/-- A computation on a session; it stops at a name that nothing stands under. -/
abbrev SessionM := OptionT (StateM Session)

/-- A computation on the vault of a session. -/
def onVault {α : Type} (work : VaultM α) : SessionM α := do
  let (result, vault) := work (← get).vault
  modify fun session => { session with vault := vault }
  return result

/-! ### Names -/

/-- What stands under a name. -/
def find {α : Type} (name : String) (entries : List (String × α)) : SessionM α :=
  match entries.lookup name with
  | some value => pure value
  | none => failure

/-- Entries with one of them set. -/
def setEntry {α : Type} (name : String) (value : α) (entries : List (String × α)) :
    List (String × α) :=
  (name, value) :: entries.filter fun entry => entry.1 != name

/-- Entries without one of them. -/
def dropEntry {α : Type} (name : String) (entries : List (String × α)) : List (String × α) :=
  entries.filter fun entry => entry.1 != name

/-- The value under a name. -/
def handle (name : String) : SessionM ValueId := do find name (← get).handles

/-- The scope under a name. -/
def scope (name : String) : SessionM ScopeId := do find name (← get).scopes

/-- The holder under a name. -/
def holder (name : String) : SessionM MasterHolder := do find name (← get).holders

/-- The item with the values under its names. -/
def item (names : Item String) : SessionM (Item ValueId) := do
  let handles := (← get).handles
  match names.resolve? fun name => handles.lookup name with
  | some item => return item
  | none => failure

/-- The untyped value with the values under its names. -/
def untyped (names : Untyped String) : SessionM (Untyped ValueId) := do
  let handles := (← get).handles
  match names.resolve? fun name => handles.lookup name with
  | some value => return value
  | none => failure

/-! ### Keeping and letting go -/

/-- Something given up if it is there. -/
def releaseAny {α : Type} (release : α → VaultM Unit) (value : Option α) : SessionM Unit :=
  match value with
  | some value => onVault (release value)
  | none => pure ()

/-- Put a handle under a name, in place of what stood there, or let go of it. -/
def keep (target : Option String) (id : ValueId) : SessionM Unit := do
  match target with
  | none => onVault (Vault.release id)
  | some name =>
    -- the old handle may be on the same value, so it goes only once the new one stands
    let old := (← get).handles.lookup name
    modify fun session => { session with handles := setEntry name id session.handles }
    releaseAny Vault.release old

/-- Show a value, then keep it or let go of it. -/
def present (target : Option String) (id : ValueId) : SessionM Reply := do
  match (← get).vault.contents? id with
  | none => return .done
  | some contents =>
    keep target id
    return .contents contents

/-- Put a scope under a name, in place of what stood there. -/
def keepScope (name : String) (id : ScopeId) : SessionM Unit := do
  let old := (← get).scopes.lookup name
  modify fun session => { session with scopes := setEntry name id session.scopes }
  releaseAny Vault.releaseScope old

/-- Put a holder under a name, in place of what stood there. -/
def keepHolder (name : String) (holder : MasterHolder) : SessionM Unit := do
  let old := (← get).holders.lookup name
  modify fun session => { session with holders := setEntry name holder session.holders }
  releaseAny MasterHolder.release old

/-! ### Cipher calls -/

/-- The bytes of a value of any kind. -/
def contentBytes : Contents → Bytes
  | .text value => Bytes.ofText value
  | .bytes value => value
  | .key value => value.getD []

/-- The bytes that a command gives or refers to. -/
def inputBytes : Input Bytes → SessionM Bytes
  | .given value => pure value
  | .held name => do
    let id ← handle name
    return (((← get).vault.contents? id).map contentBytes).getD []

/-- The text that a command gives or refers to. -/
def inputText : Input String → SessionM String
  | .given value => pure value
  | .held name => do
    match Bytes.toText? (← inputBytes (.held name)) with
    | some text => return text
    | none => failure

/-- Use a cipher in the scope and with the secret of a call. -/
def useCipher {α : Type} (call : Call)
    (use : FieldCipher → ScopeId → ValueId → String → VaultM α) : SessionM α := do
  let scope ← scope call.scope
  let secret ← handle call.secret
  onVault (use call.cipher scope secret call.context)

/-- Show the result of a strict decryption. -/
def presentResult (target : Option String) :
    Except Cipher.Fault ValueId → SessionM Reply
  | .ok id => present target id
  | .error fault => pure (.failed fault)

/-! ### Descriptions -/

/-- How a guarded value shows itself: its kind, and of bytes their number. -/
def describeContents : Contents → String
  | .text _ => "SecretText([REDACTED])"
  | .bytes value => "SecretBytes([REDACTED; " ++ toString value.length ++ "])"
  | .key _ => "KeyMaterial([REDACTED])"

/-- How a scope shows itself, with its identity left out. -/
def describeMembers (tracked : Nat) : String :=
  "WipeScope \x7b id: <id>, tracked: " ++ toString tracked ++ " \x7d"

/-! ### Commands -/

/-- Carry out a command. -/
def execute : Command → SessionM Reply
  | .newText target value => do present target (← onVault (Vault.create (.text value)))
  | .newBytes target value => do present target (← onVault (Vault.create (.bytes value)))
  | .newKey target secret context label => do
    match Cipher.deriveKey? secret context label with
    | none => return .failed .keyDerivation
    | some key => present target (← onVault (Vault.create (.key (some key))))
  | .copyHandle source target => do
    let id ← handle source
    onVault (Vault.retain id)
    present target id
  | .duplicate source target => do
    present target (← onVault (Vault.duplicateText (← handle source)))
  | .dropHandle name => do
    let id ← handle name
    modify fun session => { session with handles := dropEntry name session.handles }
    onVault (Vault.release id)
    return .dropped
  | .inspect name => do
    let id ← handle name
    match (← get).vault.contents? id with
    | some contents => return .contents contents
    | none => return .done
  | .destroyKey name => do
    let id ← handle name
    onVault (Vault.destroy id)
    return .destroyed ((← get).vault.key? id).isNone
  | .sameValue first second => do return .same ((← handle first) == (← handle second))
  | .describe name => do
    let id ← handle name
    match (← get).vault.contents? id with
    | some contents => return .description (describeContents contents)
    | none => return .done
  | .beginScope name => do
    keepScope name (← onVault Vault.beginScope)
    return .done
  | .copyScope name target => do
    let id ← scope name
    onVault (Vault.retainScope id)
    keepScope target id
    return .done
  | .dropScope name => do
    let id ← scope name
    modify fun session => { session with scopes := dropEntry name session.scopes }
    onVault (Vault.releaseScope id)
    return .done
  | .sameScope first second => do return .same ((← scope first) == (← scope second))
  | .describeScope name => do
    let id ← scope name
    return .description (describeMembers ((← get).vault.trackedCount id))
  | .mark name value => do return .marked (← onVault (Vault.mark (← scope name) (← item value)))
  | .markUntyped name value => do
    match ← onVault (Vault.markUntyped (← scope name) (← untyped value)) with
    | .ok count => return .marked count
    | .error fault => return .notWipeable fault
  | .replace name current replacement => do
    let id ← scope name
    let current ← item current
    return .replaced (← onVault (Vault.replace id current (← item replacement)))
  | .isTracked name value => do
    let id ← scope name
    let value ← item value
    return .tracked ((← get).vault.isTracked id value)
  | .flush name => do return .flushed (← onVault (Vault.flush (← scope name)))
  | .newHolder name => do
    keepHolder name .empty
    return .done
  | .setMaster name value => do
    match ← onVault ((← holder name).set value) with
    | .error fault => return .notHeld fault
    | .ok held =>
      modify fun session => { session with holders := setEntry name held session.holders }
      return .masterSet
  | .copyMaster name within target => do
    match ← onVault ((← holder name).copy (← scope within)) with
    | .error fault => return .notHeld fault
    | .ok id => present target id
  | .isSet name => do
    match (← holder name).isSet with
    | .ok yes => return .isSet yes
    | .error fault => return .notHeld fault
  | .isReady name => do return .isReady (← holder name).isReady
  | .describeHolder name => do return .description (← holder name).describe
  | .encrypt call plaintext => do
    let plaintext ← inputBytes plaintext
    let envelope ← useCipher call fun cipher scope secret context =>
      cipher.encrypt scope secret context plaintext
    present call.target (← onVault (Vault.create (.bytes envelope)))
  | .encryptText call plaintext => do
    let plaintext ← inputText plaintext
    let envelope ← useCipher call fun cipher scope secret context =>
      cipher.encryptText scope secret context plaintext
    present call.target (← onVault (Vault.create (.text envelope)))
  | .decrypt call envelope => do
    let envelope ← inputBytes envelope
    present call.target (← useCipher call fun cipher scope secret context =>
      cipher.decrypt scope secret context envelope)
  | .decryptText call envelope => do
    let envelope ← inputText envelope
    present call.target (← useCipher call fun cipher scope secret context =>
      cipher.decryptText scope secret context envelope)
  | .tryDecrypt call envelope => do
    let envelope ← inputBytes envelope
    presentResult call.target (← useCipher call fun cipher scope secret context =>
      cipher.tryDecrypt scope secret context envelope)
  | .tryDecryptText call envelope => do
    let envelope ← inputText envelope
    presentResult call.target (← useCipher call fun cipher scope secret context =>
      cipher.tryDecryptText scope secret context envelope)

/-- The answer to a command, and the session after it. -/
def step (command : Command) (session : Session) : Reply × Session :=
  match (execute command).run session with
  | (some reply, next) => (reply, next)
  -- what was done before the unknown name was met is undone
  | (none, _) => (.unknownName, session)

/-- A session with nothing in it. -/
def empty (nonces : Nat → Gcm.Nonce) : Session := ⟨.empty nonces, [], [], []⟩

/-- The session after a list of commands. -/
def run (commands : List Command) (session : Session) : Session :=
  commands.foldl (fun session command => (step command session).2) session

/-- The number of values that each scope tracks, by the name of the scope. -/
def trackedCounts (session : Session) : List (String × Nat) :=
  session.scopes.map fun (name, id) => (name, session.vault.trackedCount id)

end Session

end FieldVault
