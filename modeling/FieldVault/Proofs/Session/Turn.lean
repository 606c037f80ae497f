import FieldVault.Proofs.Cipher.Growth
import FieldVault.Proofs.Session.Run
import FieldVault.Proofs.Wipe.Names

/-!
# What a command can do

Whatever the command, a session changes in one of a few ways, and `Turn` lists them. That every step
is one of them is shown command by command elsewhere; everything that holds of all sessions is read
off this list.
-/

set_option autoImplicit false

namespace FieldVault.Session

open Wipe
open Vault (Grows)

/-! ### What a command names and creates -/

/-- The names of scopes in a command. -/
def Command.scopeNames : Command → List String
  | .beginScope name => [name]
  | .copyScope name target => [name, target]
  | .dropScope name => [name]
  | .sameScope first second => [first, second]
  | .describeScope name => [name]
  | .mark name _ => [name]
  | .markUntyped name _ => [name]
  | .replace name _ _ => [name]
  | .isTracked name _ => [name]
  | .flush name => [name]
  | .copyMaster _ name _ => [name]
  | .encrypt call _ => [call.scope]
  | .encryptText call _ => [call.scope]
  | .decrypt call _ => [call.scope]
  | .decryptText call _ => [call.scope]
  | .tryDecrypt call _ => [call.scope]
  | .tryDecryptText call _ => [call.scope]
  | _ => []

/-- A command names a scope if it mentions a name that the scope stands under. -/
def Names (s : Session) (command : Command) (scope : ScopeId) : Prop :=
  ∃ name ∈ command.scopeNames, s.scopes.lookup name = some scope

/-- What a command creates a value with: the contents it gives, the text it copies, the key it
derives, or the result of a cipher, which it shows. -/
def Creates (s : Session) (command : Command) (contents : Contents) : Prop :=
  match command with
  | .newText _ value => contents = .text value
  | .newBytes _ value => contents = .bytes value
  | .newKey _ secret context label =>
    ∃ key, Cipher.deriveKey? secret context label = some key ∧ contents = .key (some key)
  | .duplicate source _ =>
    ∃ id, s.handles.lookup source = some id ∧ contents = .text (s.vault.text id)
  | .setMaster _ value => contents = .text value
  | .copyMaster name _ _ => ∃ holder secret, s.holders.lookup name = some holder ∧
      holder.secret = some secret ∧ contents = .text (s.vault.text secret)
  | .encrypt .. => (step command s).1 = .contents contents
  | .encryptText .. => (step command s).1 = .contents contents
  | .decrypt .. => (step command s).1 = .contents contents
  | .decryptText .. => (step command s).1 = .contents contents
  | .tryDecrypt .. => (step command s).1 = .contents contents
  | .tryDecryptText .. => (step command s).1 = .contents contents
  | _ => False

/-- The values that stand under names. -/
def handleIds (s : Session) : List ValueId := s.handles.map Prod.snd

/-- What stands under a name is among all that stands under names. -/
theorem mem_map_snd_of_lookup {α : Type} {name : String} {value : α} {entries : List (String × α)}
    (h : entries.lookup name = some value) : value ∈ entries.map Prod.snd := by
  induction entries with
  | nil => cases h
  | cons entry rest ih =>
    rw [List.lookup_cons] at h
    split at h
    · exact List.mem_cons.2 (.inl (Option.some.inj h).symm)
    · exact List.mem_cons.2 (.inr (ih h))

/-! ### The ways to change -/

/-- The command flushes no scope and destroys no key. -/
def Calm (s : Session) (command : Command) : Prop :=
  (∀ name, command = .flush name → s.scopes.lookup name = none) ∧
    ∀ name, command = .destroyKey name → s.handles.lookup name = none

/-- The ways in which a command can change a session. -/
inductive Turn (s : Session) (command : Command) : Session → Prop
  /-- Nothing changes. -/
  | idle (hcalm : s.Calm command) : Turn s command s
  /-- A named scope tracks more, and spent keys may be left behind. -/
  | worked {scope : ScopeId} {v : Vault} (hcalm : s.Calm command) (hscope : s.Names command scope)
      (hgrows : Grows s.handleIds scope [] s.vault v) : Turn s command (s.withVault v)
  /-- A new value is kept, which a named scope may track. -/
  | made {scope : ScopeId} {v : Vault} {id : ValueId} {contents : Contents}
      (target : Option String) (hcalm : s.Calm command)
      (hscope : v.scopes = s.vault.scopes ∨ s.Names command scope)
      (hgrows : Grows s.handleIds scope [id] s.vault v)
      (hcontents : v.contents? id = some contents) (hcreates : s.Creates command contents) :
      Turn s command ((s.withVault v).kept target id)
  /-- Another handle on a value is kept. -/
  | copied {id : ValueId} (target : Option String) (hcalm : s.Calm command)
      (hid : id ∈ s.handleIds) :
      Turn s command ((s.withVault (s.vault.retained id)).kept target id)
  /-- A handle is given up. -/
  | dropped {name : String} {id : ValueId} (hcalm : s.Calm command)
      (hname : s.handles.lookup name = some id) :
      Turn s command { s with vault := s.vault.letGo id, handles := dropEntry name s.handles }
  /-- A value is wiped at once. -/
  | destroyed {name : String} {id : ValueId} (hcommand : command = .destroyKey name)
      (hname : s.handles.lookup name = some id) : Turn s command (s.withVault (s.vault.wipe id))
  /-- A scope is begun. -/
  | begun {name : String} (hcalm : s.Calm command) (hin : name ∈ command.scopeNames) :
      Turn s command ((s.withVault s.vault.scopeBegun).keptScope name s.vault.scopes.size)
  /-- Another handle on a scope is kept. -/
  | scopeCopied {name target : String} {scope : ScopeId} (hcalm : s.Calm command)
      (hin : target ∈ command.scopeNames) (hname : s.scopes.lookup name = some scope) :
      Turn s command ((s.withVault (s.vault.scopeRetained scope)).keptScope target scope)
  /-- A handle on a scope is given up. -/
  | scopeDropped {name : String} {scope : ScopeId} (hcalm : s.Calm command)
      (hin : name ∈ command.scopeNames) (hname : s.scopes.lookup name = some scope) :
      Turn s command
        { s with vault := s.vault.scopeReleased scope, scopes := dropEntry name s.scopes }
  /-- A named scope tracks other values in place of one. -/
  | replaced {scope : ScopeId} {id : ValueId} {ids : List ValueId} (hcalm : s.Calm command)
      (hscope : s.Names command scope) (hids : ∀ other ∈ ids, other ∈ s.handleIds) :
      Turn s command (s.withVault (s.vault.setMembers scope
        (Vault.addMembers ((s.vault.members scope).erase id) ids)))
  /-- A scope is flushed. -/
  | flushed {name : String} {scope : ScopeId} (hcommand : command = .flush name)
      (hname : s.scopes.lookup name = some scope) :
      Turn s command (s.withVault (s.vault.flushed scope))
  /-- An empty holder is kept. -/
  | holderMade (name : String) (hcalm : s.Calm command) : Turn s command (s.keptHolder name .empty)
  /-- A holder gets its secret. -/
  | masterSet {name value : String} {holder : MasterHolder} (hcalm : s.Calm command)
      (hname : s.holders.lookup name = some holder) (hunset : holder.secret = none)
      (hcreates : s.Creates command (.text value)) :
      Turn s command { s with
        vault := s.vault.addCell ⟨.text value, 1⟩
        holders := setEntry name ⟨some s.vault.cells.size⟩ s.holders }

variable {s : Session} {command : Command}

/-- A command that leaves the session as it is. -/
theorem turn_of_same (hcalm : s.Calm command) (reply : Option Reply)
    (h : outcome (execute command) s = (reply, s)) : Turn s command (step command s).2 := by
  rw [step_eq, h]
  cases reply with
  | none => exact .idle hcalm
  | some reply => exact .idle hcalm

/-- A command that leaves another session. -/
theorem turn_of_some {reply : Reply} {t : Session}
    (h : outcome (execute command) s = (some reply, t)) (hturn : Turn s command t) :
    Turn s command (step command s).2 := by
  rw [step_eq, h]
  exact hturn

/-- A command that looks something up changes nothing if there is nothing, and otherwise goes on
with what it finds. -/
theorem turn_of_found {α : Type} {found : Option α} {look : SessionM α}
    {use : α → SessionM Reply}
    (hlook : outcome look s = (found, s)) (hcalm : found = none → s.Calm command)
    (h : outcome (execute command) s = outcome (look >>= use) s)
    (hturn : ∀ value, found = some value → outcome (execute command) s = outcome (use value) s →
      Turn s command (step command s).2) : Turn s command (step command s).2 := by
  rw [outcome_bind, hlook] at h
  cases found with
  | none => exact turn_of_same (hcalm rfl) none h
  | some value => exact hturn value rfl h

end FieldVault.Session
