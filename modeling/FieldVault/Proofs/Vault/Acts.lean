import FieldVault.Proofs.Vault.Handles

/-!
# Code that acts on a vault

Code that is handed values and scopes can only use their operations. An `Act` is one of these, and
an `Activity` is code as a tree: it is at its end, or it acts and goes on in a way that may depend
on the answer. What it has done is a list of acts, and a run of the code is these acts one after
the other (`Activity.run_eq`).

An act on a scope needs a handle on it. `Act.owned` counts the handles that the acting code owns;
the others on the same scope are in other hands. Two facts follow for a scope that still has a
handle at the end of a list of acts: it never ended on the way, so no report was made of it
(`events_performed`), and what it tracked it tracks on, unless it was replaced or flushed
(`mem_members_performed`).
-/

set_option autoImplicit false

namespace FieldVault

open Wipe

namespace Vault

/-- A single value gives its place in a scope to the values of an item. -/
def replaced (v : Vault) (scope : ScopeId) (current replacement : Item ValueId) : Vault :=
  ((replace scope current replacement).run v).2

/-- An operation on the values and the scopes of a vault. -/
inductive Act where
  | create (contents : Contents)
  | retain (id : ValueId)
  | release (id : ValueId)
  | destroy (id : ValueId)
  | read (id : ValueId)
  | beginScope
  | copyScope (scope : ScopeId)
  | dropScope (scope : ScopeId)
  | mark (scope : ScopeId) (item : Item ValueId)
  | replace (scope : ScopeId) (current replacement : Item ValueId)
  | survey (scope : ScopeId)
  | flush (scope : ScopeId)

/-- What an act tells the code that acts. -/
inductive Answer where
  | done
  | value (id : ValueId)
  | contents (contents : Option Contents)
  | begun (scope : ScopeId)
  | marked (count : Nat)
  | replaced (yes : Bool)
  | tracked (ids : List ValueId)
  | flushed (report : FlushReport)

namespace Act

/-- Carry out an act. -/
def perform : Act → VaultM Answer
  | .create contents => do return .value (← Vault.create contents)
  | .retain id => do
    Vault.retain id
    return .done
  | .release id => do
    Vault.release id
    return .done
  | .destroy id => do
    Vault.destroy id
    return .done
  | .read id => do return .contents ((← get).contents? id)
  | .beginScope => do return .begun (← Vault.beginScope)
  | .copyScope scope => do
    Vault.retainScope scope
    return .done
  | .dropScope scope => do
    Vault.releaseScope scope
    return .done
  | .mark scope item => do return .marked (← Vault.mark scope item)
  | .replace scope current replacement => do
    return .replaced (← Vault.replace scope current replacement)
  | .survey scope => do return .tracked ((← get).members scope)
  | .flush scope => do return .flushed (← Vault.flush scope)

/-- The answer to an act. -/
def answer (act : Act) (v : Vault) : Answer := (act.perform.run v).1

/-- The vault after an act. -/
def after : Act → Vault → Vault
  | .create contents, v => v.addCell ⟨contents, 1⟩
  | .retain id, v => v.retained id
  | .release id, v => v.letGo id
  | .destroy id, v => v.wipe id
  | .read _, v => v
  | .beginScope, v => v.scopeBegun
  | .copyScope scope, v => v.scopeRetained scope
  | .dropScope scope, v => v.scopeReleased scope
  | .mark scope item, v => v.track scope item.leaves
  | .replace scope current replacement, v => v.replaced scope current replacement
  | .survey _, v => v
  | .flush scope, v => v.flushed scope

theorem perform_run (act : Act) (v : Vault) : act.perform.run v = (act.answer v, act.after v) := by
  cases act <;> rfl

/-- The scope that an act needs a handle on. -/
def scope? : Act → Option ScopeId
  | .copyScope scope => some scope
  | .dropScope scope => some scope
  | .mark scope _ => some scope
  | .replace scope _ _ => some scope
  | .survey scope => some scope
  | .flush scope => some scope
  | _ => none

/-- The number of handles on a scope that the acting code owns after an act, from the number before;
none if the act needs a handle and there is none. -/
def owned (scope : ScopeId) (before : Nat) (act : Act) : Option Nat :=
  if act.scope? = some scope then
    match before, act with
    | 0, _ => none
    | n + 1, .copyScope _ => some (n + 2)
    | n + 1, .dropScope _ => some n
    | n + 1, _ => some (n + 1)
  else some before

end Act

/-- The vault after a list of acts. -/
def performed (acts : List Act) (v : Vault) : Vault := acts.foldl (fun v act => act.after v) v

/-- The number of handles on a scope that the acting code owns after a list of acts. -/
def ownedAfter (scope : ScopeId) (before : Nat) (acts : List Act) : Option Nat :=
  acts.foldlM (Act.owned scope) before

/-- Code as a tree of acts. -/
inductive Activity (α : Type) where
  | ended (result : α)
  | act (first : Act) (next : Answer → Activity α)

namespace Activity

variable {α : Type}

/-- Run code. -/
def run : Activity α → VaultM α
  | .ended result => pure result
  | .act first next => do
    let answer ← first.perform
    (next answer).run

/-- What code does on a vault. -/
def acts : Activity α → Vault → List Act
  | .ended _, _ => []
  | .act first next, v => first :: (next (first.answer v)).acts (first.after v)

/-- What code comes to on a vault. -/
def result : Activity α → Vault → α
  | .ended result, _ => result
  | .act first next, v => (next (first.answer v)).result (first.after v)

/-- A run of code is what it does, act by act. -/
theorem run_eq (code : Activity α) (v : Vault) :
    code.run.run v = (code.result v, performed (code.acts v) v) := by
  induction code generalizing v with
  | ended result => rfl
  | act first next ih =>
    rw [run, run_bind, first.perform_run]
    exact ih (first.answer v) (first.after v)

end Activity

variable {v : Vault} {scope : ScopeId} {act : Act} {acts : List Act} {id : ValueId}
  {before others left : Nat}

/-! ### Ownership of a scope -/

/-- What an act does to the handles that the acting code owns. -/
theorem owned_cases {after : Nat} (h : act.owned scope before = some after) :
    (act = .copyScope scope ∧ after = before + 1) ∨
      (act = .dropScope scope ∧ before = after + 1) ∨
      (act ≠ .copyScope scope ∧ act ≠ .dropScope scope ∧ after = before) := by
  unfold Act.owned at h
  split at h
  · rename_i hscope
    cases before with
    | zero => cases h
    | succ n =>
      cases act with
      | copyScope other =>
        cases hscope
        cases h
        exact .inl ⟨rfl, rfl⟩
      | dropScope other =>
        cases hscope
        cases h
        exact .inr (.inl ⟨rfl, rfl⟩)
      | _ =>
        cases h
        exact .inr (.inr ⟨nofun, nofun, rfl⟩)
  · rename_i hscope
    cases h
    refine .inr (.inr ⟨?_, ?_, rfl⟩)
    · rintro rfl
      exact hscope rfl
    · rintro rfl
      exact hscope rfl

/-- Code that owns no handle on a scope gets none. -/
theorem owned_zero {after : Nat} (h : act.owned scope 0 = some after) : after = 0 := by
  unfold Act.owned at h
  split at h
  · cases h
  · exact (Option.some.inj h).symm

theorem ownedAfter_cons :
    ownedAfter scope before (act :: acts) = some left ↔
      ∃ after, act.owned scope before = some after ∧ ownedAfter scope after acts = some left := by
  rw [ownedAfter, List.foldlM_cons]
  exact Option.bind_eq_some_iff

theorem ownedAfter_zero (h : ownedAfter scope 0 acts = some left) : left = 0 := by
  induction acts with
  | nil => exact (Option.some.inj h).symm
  | cons act rest ih =>
    obtain ⟨after, hact, hrest⟩ := ownedAfter_cons.1 h
    rw [owned_zero hact] at hrest
    exact ih hrest

/-! ### One act -/

/-- A value gives up its place if it is a single one and tracked; otherwise nothing happens. -/
theorem replaced_cases (v : Vault) (scope : ScopeId) (current replacement : Item ValueId) :
    v.replaced scope current replacement = v ∨ ∃ gone, current.single? = some gone ∧
      v.replaced scope current replacement =
        v.setMembers scope (addMembers ((v.members scope).erase gone) replacement.leaves) := by
  cases current with
  | one gone =>
    simp only [replaced, replace, Item.single?, StateT.run]
    split
    · exact .inr ⟨gone, rfl, rfl⟩
    · exact .inl rfl
  | many items => exact .inl rfl
  | none => exact .inl rfl

/-- A value that is tracked stays so if another one gives up its place. -/
theorem mem_members_replaced {current replacement : Item ValueId} {other : ScopeId}
    (hid : id ∈ v.members scope) (hin : scope < v.scopes.size)
    (hother : other = scope → current.single? ≠ some id) :
    id ∈ (v.replaced other current replacement).members scope := by
  rcases replaced_cases v other current replacement with hsame | ⟨gone, hgone, hset⟩
  · rw [hsame]
    exact hid
  · rw [hset]
    by_cases hscope : other = scope
    · subst hscope
      have hne : id ≠ gone := by
        rintro rfl
        exact hother rfl hgone
      rw [members_setMembers_self, if_pos hin, mem_addMembers]
      exact .inl ((List.mem_erase_of_ne hne).2 hid)
    · rw [members_congr (scopes_setMembers_of_ne v (Ne.symm hscope) _)]
      exact hid

theorem flushed_events (v : Vault) (scope : ScopeId) : (v.flushed scope).events = v.events := by
  have hwipe (ids : List ValueId) (w : Vault) : (w.wipeLiving ids).events = w.events := by
    induction ids generalizing w with
    | nil => rfl
    | cons first rest ih =>
      rw [wipeLiving, List.foldl_cons]
      split
      · exact ih (w.wipe first)
      · exact ih w
  exact hwipe _ _

/-- A handle given up on a scope is reported only if it is the last one. -/
theorem scopeReleased_events (h : 1 < v.handlesOnScope scope) :
    (v.scopeReleased scope).events = v.events := by
  rw [scopeReleased_eq, if_neg (Nat.not_le_of_lt h)]
  rfl

/-- No act makes a scope undone. -/
theorem size_scopes_after (act : Act) (v : Vault) : v.scopes.size ≤ (act.after v).scopes.size := by
  cases act with
  | beginScope =>
    rw [Act.after, scopeBegun, Array.size_push]
    exact Nat.le_succ _
  | copyScope scope => simp [Act.after, scopeRetained]
  | dropScope scope =>
    rw [Act.after, scopeReleased_eq]
    split
    · rw [dropScope_eq]
      split
      · simp [scopeLowered]
      · simp [scopeLowered, flushed, setMembers]
    · simp [scopeLowered]
  | mark scope item => simp [Act.after, track]
  | replace scope current replacement =>
    rcases replaced_cases v scope current replacement with h | ⟨gone, -, h⟩
    · simp [Act.after, h]
    · simp [Act.after, h]
  | flush scope => simp [Act.after, flushed]
  | _ => exact Nat.le_refl _

/-- Only copies and drops change the number of handles on a scope. -/
theorem handlesOnScope_after (hin : scope < v.scopes.size) (hcopy : act ≠ .copyScope scope)
    (hdrop : act ≠ .dropScope scope) :
    (act.after v).handlesOnScope scope = v.handlesOnScope scope := by
  cases act with
  | beginScope => rw [Act.after, handlesOnScope_scopeBegun, if_neg (Nat.ne_of_gt hin), Nat.add_zero]
  | copyScope other =>
    have hne : other ≠ scope := by
      rintro rfl
      exact hcopy rfl
    by_cases hother : other < v.scopes.size
    · rw [Act.after, handlesOnScope_scopeRetained hother, if_neg hne, Nat.add_zero]
    · -- there is no such scope to be copied
      apply handlesOnScope_congr
      rw [Act.after, scopeRetained, Array.getElem?_modify, if_neg hne]
  | dropScope other =>
    have hne : other ≠ scope := by
      rintro rfl
      exact hdrop rfl
    rw [Act.after, handlesOnScope_scopeReleased, if_neg hne, Nat.sub_zero]
  | mark other item => exact handlesOnScope_setMembers v other scope _
  | replace other current replacement =>
    rcases replaced_cases v other current replacement with h | ⟨gone, -, h⟩
    · rw [Act.after, h]
    · rw [Act.after, h, handlesOnScope_setMembers]
  | flush other => exact handlesOnScope_flushed v other scope
  | _ => rfl

/-- Nothing but the end of a scope is reported. -/
theorem events_after (h : ∀ scope, act = .dropScope scope → 1 < v.handlesOnScope scope) :
    (act.after v).events = v.events := by
  cases act with
  | dropScope scope => exact scopeReleased_events (h scope rfl)
  | replace scope current replacement =>
    rcases replaced_cases v scope current replacement with h | ⟨gone, -, h⟩
    · rw [Act.after, h]
    · rw [Act.after, h]
      rfl
  | flush scope => exact flushed_events v scope
  | _ => rfl

/-- The act leaves a value in a scope that tracks it: it does not flush the scope, and it puts
nothing else in the place of the value. -/
def Act.Spares (scope : ScopeId) (id : ValueId) : Act → Prop
  | .flush other => other ≠ scope
  | .replace other current _ => other = scope → current.single? ≠ some id
  | _ => True

theorem mem_members_after (hid : id ∈ v.members scope) (hin : scope < v.scopes.size)
    (hspares : act.Spares scope id) (hlast : act = .dropScope scope → 1 < v.handlesOnScope scope) :
    id ∈ (act.after v).members scope := by
  cases act with
  | beginScope =>
    rw [Act.after, members_scopeBegun]
    exact hid
  | copyScope other =>
    rw [Act.after, members_scopeRetained]
    exact hid
  | dropScope other =>
    rw [Act.after, members_scopeReleased, if_neg]
    · exact hid
    · rintro ⟨hle, rfl⟩
      exact Nat.not_lt_of_le hle (hlast rfl)
  | mark other item =>
    by_cases hsame : other = scope
    · subst hsame
      rw [Act.after, track, members_setMembers_self, if_pos hin, mem_addMembers]
      exact .inl hid
    · rw [Act.after, track, members_congr (scopes_setMembers_of_ne v (Ne.symm hsame) _)]
      exact hid
  | replace other current replacement => exact mem_members_replaced hid hin hspares
  | flush other =>
    rw [Act.after, members_flushed, if_neg hspares]
    exact hid
  | _ => exact hid

/-! ### A list of acts -/

/-- A scope that was begun has some number of handles. -/
structure Holding (scope : ScopeId) (handles : Nat) (v : Vault) : Prop where
  begun : scope < v.scopes.size
  count : v.handlesOnScope scope = handles

/-- The handles on a scope are those of the acting code and the others, which stay as they are. -/
theorem Holding.after {next : Nat} (others : Nat) (h : Holding scope (before + others) v)
    (howned : act.owned scope before = some next) :
    Holding scope (next + others) (act.after v) := by
  refine ⟨Nat.lt_of_lt_of_le h.begun (size_scopes_after act v), ?_⟩
  rcases owned_cases howned with ⟨rfl, rfl⟩ | ⟨rfl, rfl⟩ | ⟨hcopy, hdrop, rfl⟩
  · rw [Act.after, handlesOnScope_scopeRetained h.begun, if_pos rfl, h.count]
    omega
  · rw [Act.after, handlesOnScope_scopeReleased, if_pos rfl, h.count]
    omega
  · rw [handlesOnScope_after h.begun hcopy hdrop]
    exact h.count

theorem Holding.performed (others : Nat) (h : Holding scope (before + others) v)
    (howned : ownedAfter scope before acts = some left) :
    Holding scope (left + others) (performed acts v) := by
  induction acts generalizing v before with
  | nil =>
    cases howned
    exact h
  | cons act rest ih =>
    obtain ⟨next, hact, hrest⟩ := ownedAfter_cons.1 howned
    exact ih (h.after others hact) hrest

/-- If a scope has a handle at the end, no handle given up on the way was the last one. -/
theorem lt_handlesOnScope_of_drop (h : Holding scope (before + others) v)
    (howned : ownedAfter scope before (act :: acts) = some left) (hleft : 0 < left + others)
    (hdrop : act = .dropScope scope) : 1 < v.handlesOnScope scope := by
  obtain ⟨next, hact, hrest⟩ := ownedAfter_cons.1 howned
  rcases owned_cases hact with ⟨rfl, -⟩ | ⟨-, hbefore⟩ | ⟨-, hne, -⟩
  · cases hdrop
  · rw [h.count]
    cases next with
    | zero =>
      -- the acting code has none left and gets none, so somebody else has one
      have hnone : left = 0 := ownedAfter_zero hrest
      omega
    | succ n => omega
  · exact absurd hdrop hne

/-- Acts that end no scope are not reported. -/
theorem events_performed (others : Nat) (h : Holding scope (before + others) v)
    (howned : ownedAfter scope before acts = some left) (hleft : 0 < left + others)
    (hquiet : ∀ other, .dropScope other ∈ acts → other = scope) :
    (performed acts v).events = v.events := by
  induction acts generalizing v before with
  | nil => rfl
  | cons act rest ih =>
    obtain ⟨next, hact, hrest⟩ := ownedAfter_cons.1 howned
    have hfirst : (act.after v).events = v.events := by
      apply events_after
      intro other hdrop
      obtain rfl : other = scope := hquiet other (hdrop ▸ List.mem_cons_self)
      exact lt_handlesOnScope_of_drop h howned hleft hdrop
    have hothers : (performed rest (act.after v)).events = (act.after v).events := by
      apply ih (h.after others hact) hrest
      intro other hmem
      exact hquiet other (List.mem_cons_of_mem _ hmem)
    exact hothers.trans hfirst

/-- What a scope tracks it tracks on, as long as it has a handle and nothing takes the place of the
value. -/
theorem mem_members_performed (others : Nat) (h : Holding scope (before + others) v)
    (howned : ownedAfter scope before acts = some left) (hleft : 0 < left + others)
    (hspares : ∀ act ∈ acts, act.Spares scope id) (hid : id ∈ v.members scope) :
    id ∈ (performed acts v).members scope := by
  induction acts generalizing v before with
  | nil => exact hid
  | cons act rest ih =>
    obtain ⟨next, hact, hrest⟩ := ownedAfter_cons.1 howned
    apply ih (h.after others hact) hrest
    · intro other hmem
      exact hspares other (List.mem_cons_of_mem _ hmem)
    · apply mem_members_after hid h.begun (hspares act List.mem_cons_self)
      exact lt_handlesOnScope_of_drop h howned hleft

/-- A list of acts in two parts. -/
theorem ownedAfter_append {first second : List Act} :
    ownedAfter scope before (first ++ second) = some left ↔
      ∃ between, ownedAfter scope before first = some between ∧
        ownedAfter scope between second = some left := by
  rw [ownedAfter, List.foldlM_append]
  exact Option.bind_eq_some_iff

theorem performed_append (first second : List Act) (v : Vault) :
    performed (first ++ second) v = performed second (performed first v) :=
  List.foldl_append

end Vault

end FieldVault
