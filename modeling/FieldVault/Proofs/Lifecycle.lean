import FieldVault.Lifecycle
import FieldVault.Proofs.Vault.Acts

/-!
# Flushed on every way out

However a unit of work ends, its guard flushes the scope of the work once
(`flushed_once_however_work_ends`). The work is any code that acts on values and scopes and owns one
handle on its scope; it may copy the handle, hand copies on and give them up, and it is free to act
on everything else. What the guard leaves is stated by `Cleared`, and what becomes of a scope that
outlives the work by `Swept`.

The proof has two parts. A scope on which somebody else has a handle cannot end while the work goes
on, so the guard always finds it (`Holding.performed`, `events_performed`). And both ways in which
a guard goes, finished or dropped, come to one flush and one handle given up (`close_run`).
-/

set_option autoImplicit false

namespace FieldVault

open Wipe Vault

/-- What a flush of a scope reports: the members with a handle, and the rest of them. -/
def Vault.flushReport (v : Vault) (scope : ScopeId) : FlushReport :=
  let alive := ((v.members scope).filter v.isAlive).length
  ⟨alive, (v.members scope).length - alive⟩

/-- The vault `t` is `s` with everything that a scope tracked wiped and forgotten, and with all else
as it was. -/
structure Cleared (scope : ScopeId) (s t : Vault) : Prop where
  /-- A tracked value that is held by a handle anywhere is wiped. -/
  wiped : ∀ id ∈ s.members scope, 0 < s.handlesOn id →
    t.contents? id = (s.contents? id).map Contents.wiped
  /-- The scope tracks nothing. -/
  empty : t.members scope = []
  /-- Values that other scopes track, or none, keep their contents and their handles. -/
  others : ∀ id, id ∉ s.members scope → t.cells[id]? = s.cells[id]?
  /-- The handles on the values stay where they are. -/
  handles : ∀ id, t.handlesOn id = s.handlesOn id
  /-- Other scopes keep their members and their handles. -/
  scopes : ∀ other, other ≠ scope → t.scopes[other]? = s.scopes[other]?

/-- The acts `late` keep a scope, and then its last handle is given up: what was put into the scope
on the way is wiped, with one report of the number tracked. -/
structure Swept (scope : ScopeId) (late : List Act) (t : Vault) : Prop where
  /-- A value that is marked is tracked at the end, unless something takes its place. -/
  tracked : ∀ first item rest id, late = first ++ .mark scope item :: rest → id ∈ item.leaves →
    (∀ act ∈ rest, act.Spares scope id) → id ∈ (performed late t).members scope
  /-- The scope is not reported before its last handle goes. -/
  silent : (∀ other, .dropScope other ∈ late → other = scope) →
    (performed late t).events = t.events
  /-- With the last handle everything tracked is wiped. -/
  cleared : Cleared scope (performed late t) ((Act.dropScope scope).after (performed late t))
  /-- One report is made, unless there is nothing to report. -/
  reported : ((Act.dropScope scope).after (performed late t)).events =
    (performed late t).events ++ if ((performed late t).members scope).isEmpty then [] else
      [.scopeDropped ((performed late t).members scope).length]

variable {s t v : Vault} {scope : ScopeId}

/-! ### Clearing a scope -/

/-- A scope is cleared if the living values among its members are wiped. -/
theorem cleared_of_cells (hempty : t.members scope = [])
    (hcells : ∀ id, t.cells[id]? = (s.cells[id]?).map fun cell =>
      if id ∈ s.members scope ∧ 0 < cell.handles then wipeCell cell else cell)
    (hscopes : ∀ other, other ≠ scope → t.scopes[other]? = s.scopes[other]?) :
    Cleared scope s t := by
  refine ⟨?_, hempty, ?_, ?_, hscopes⟩
  · intro id hid halive
    rw [handlesOn] at halive
    rw [contents?, contents?, hcells]
    cases hcell : s.cells[id]? with
    | none => rfl
    | some cell =>
      rw [hcell] at halive
      rw [Option.map_some, if_pos ⟨hid, halive⟩]
      rfl
  · intro id hid
    rw [hcells]
    simp [hid]
  · intro id
    exact handlesOn_eq_of_wiped (hcells id)

/-- A handle on a scope that tracks nothing is given up without any consequence. -/
theorem scopeReleased_of_members (h : v.members scope = []) :
    v.scopeReleased scope = v.scopeLowered scope := by
  rw [scopeReleased_eq]
  split
  · rw [dropScope_eq, members_scopeLowered, h]
    rfl
  · rfl

theorem scopeLowered_scopes_of_ne {other : ScopeId} (h : other ≠ scope) (v : Vault) :
    (v.scopeLowered scope).scopes[other]? = v.scopes[other]? := by
  rw [scopeLowered, Array.getElem?_modify, if_neg (Ne.symm h)]

theorem flushed_scopes_of_ne {other : ScopeId} (h : other ≠ scope) (v : Vault) :
    (v.flushed scope).scopes[other]? = v.scopes[other]? := by
  rw [flushed, wipeLiving_scopes]
  exact scopes_setMembers_of_ne v h []

/-- The vault after a flush and a handle given up. -/
def Vault.discharged (v : Vault) (scope : ScopeId) : Vault := (v.flushed scope).scopeReleased scope

/-- After a flush there is nothing left for the last handle to do. -/
theorem discharged_eq (v : Vault) (scope : ScopeId) :
    v.discharged scope = (v.flushed scope).scopeLowered scope := by
  apply scopeReleased_of_members
  rw [members_flushed, if_pos rfl]

theorem cleared_discharged (v : Vault) (scope : ScopeId) :
    Cleared scope v (v.discharged scope) := by
  rw [discharged_eq]
  apply cleared_of_cells
  · rw [members_scopeLowered, members_flushed, if_pos rfl]
  · intro id
    rw [scopeLowered_cells, getElem?_flushed]
  · intro other hother
    rw [scopeLowered_scopes_of_ne hother, flushed_scopes_of_ne hother]

@[simp]
theorem discharged_events (v : Vault) (scope : ScopeId) :
    (v.discharged scope).events = v.events := by
  rw [discharged_eq]
  exact flushed_events v scope

/-- A guard gives up the one handle that it has. -/
theorem Vault.Holding.discharged {left : Nat} (h : Holding scope (left + 1) v) :
    Holding scope left (v.discharged scope) := by
  rw [discharged_eq]
  constructor
  · simp only [scopeLowered, Array.size_modify, flushed, wipeLiving_scopes, size_scopes_setMembers]
    exact h.begun
  · rw [handlesOnScope_scopeLowered, handlesOnScope_flushed, h.count, if_pos rfl]
    rfl

/-- The last handle given up. -/
theorem cleared_scopeReleased (hlast : v.handlesOnScope scope ≤ 1) :
    Cleared scope v (v.scopeReleased scope) := by
  apply cleared_of_cells
  · rw [members_scopeReleased, if_pos ⟨hlast, rfl⟩]
  · intro id
    rw [getElem?_scopeReleased]
    simp only [hlast, true_and]
  · intro other hother
    rw [scopeReleased_eq, if_pos hlast, dropScope_eq]
    split
    · exact scopeLowered_scopes_of_ne hother v
    · rw [addEvent_scopes, flushed_scopes_of_ne hother, scopeLowered_scopes_of_ne hother]

/-- The last handle is reported with the number of values tracked. -/
theorem events_scopeReleased (hlast : v.handlesOnScope scope ≤ 1) :
    (v.scopeReleased scope).events = v.events ++
      if (v.members scope).isEmpty then [] else [.scopeDropped (v.members scope).length] := by
  rw [scopeReleased_eq, if_pos hlast, dropScope_eq, members_scopeLowered]
  split
  · exact (List.append_nil _).symm
  · rw [addEvent_events, flushed_events]
    rfl

/-! ### A scope that outlives its work -/

/-- A scope on which one handle is left is swept when that handle goes. -/
theorem swept_of_owned {left : Nat} {late : List Act} (hheld : Holding scope left t)
    (howned : ownedAfter scope left late = some 1) : Swept scope late t := by
  have hend : Holding scope 1 (performed late t) := hheld.performed 0 howned
  have hlast : (performed late t).handlesOnScope scope ≤ 1 := Nat.le_of_eq hend.count
  refine ⟨?_, ?_, cleared_scopeReleased hlast, events_scopeReleased hlast⟩
  · rintro first item rest id rfl hid hspares
    obtain ⟨owned, hfirst, hothers⟩ := ownedAfter_append.1 howned
    obtain ⟨after, hmark, hrest⟩ := ownedAfter_cons.1 hothers
    have hbefore : Holding scope owned (performed first t) := hheld.performed 0 hfirst
    rw [performed_append]
    apply mem_members_performed 0 (hbefore.after 0 hmark) hrest
      Nat.one_pos hspares
    rw [Act.after, track, members_setMembers_self, if_pos hbefore.begun, mem_addMembers]
    exact .inr hid
  · intro hquiet
    exact events_performed 0 hheld howned Nat.one_pos hquiet

/-! ### The guard -/

/-- The vault in which a unit of work starts: its scope is begun, and its guard has a handle. -/
def Vault.guardArmed (v : Vault) : Vault := v.scopeBegun.scopeRetained v.scopes.size

/-- Two handles are there when the work starts, its own and that of the guard. -/
theorem holding_guardArmed (v : Vault) : Holding v.scopes.size (1 + 1) v.guardArmed := by
  have hin : v.scopes.size < v.scopeBegun.scopes.size := by
    rw [scopeBegun, Array.size_push]
    exact Nat.lt_succ_self _
  constructor
  · rw [guardArmed, scopeRetained, Array.size_modify]
    exact hin
  · have hnone : v.handlesOnScope v.scopes.size = 0 := by
      rw [handlesOnScope, Array.getElem?_eq_none (Nat.le_refl _)]
      rfl
    rw [guardArmed, handlesOnScope_scopeRetained hin, handlesOnScope_scopeBegun, hnone]
    simp

section

variable {α : Type}

/-- An armed guard makes one flush and gives up one handle, whether it is finished or dropped. -/
theorem close_run (ending : Ending α) (scope : ScopeId) (v : Vault) :
    (FlushGuard.close ⟨some scope⟩ ending).run v =
      ([v.flushReport scope], v.discharged scope) := by
  cases ending with
  | completed answer => rfl
  | panicked => rfl
  | cancelled => rfl

/-- A unit of work: it runs on its scope, and what it leaves is flushed. -/
theorem withScopeUntil_run (work : ScopeId → VaultM (Ending α)) (v : Vault) {ending : Ending α}
    {s : Vault} (hwork : (work v.scopes.size).run v.guardArmed = (ending, s)) :
    (withScopeUntil work : VaultM (Ending α × List FlushReport)).run v =
      ((ending, [s.flushReport v.scopes.size]), s.discharged v.scopes.size) := by
  have hguarded : (withScopeUntil work : VaultM (Ending α × List FlushReport)).run v =
      let (ending, s) := (work v.scopes.size).run v.guardArmed
      let (reports, t) := (FlushGuard.close ⟨some v.scopes.size⟩ ending).run s
      ((ending, reports), t) := rfl
  rw [hguarded, hwork]
  dsimp only
  rw [close_run]

variable (work : ScopeId → Activity (Ending α)) (v : Vault)

/-- What a unit of work does, on its scope and elsewhere. -/
def actsOf : List Act := (work v.scopes.size).acts v.guardArmed

/-- The vault when a unit of work ends, while its guard is still there. -/
def atEnd : Vault := performed (actsOf work v) v.guardArmed

/-- A whole unit of work: the way it ended, and the flushes made. -/
def unitRun : (Ending α × List FlushReport) × Vault :=
  (withScopeUntil fun scope => (work scope).run : VaultM (Ending α × List FlushReport)).run v

theorem unitRun_eq : unitRun work v =
    (((work v.scopes.size).result v.guardArmed, [(atEnd work v).flushReport v.scopes.size]),
      (atEnd work v).discharged v.scopes.size) :=
  withScopeUntil_run (fun scope => (work scope).run) v ((work v.scopes.size).run_eq v.guardArmed)

/-- However a unit of work ends, and whatever it did, its scope is flushed once: what the scope
tracks at the end is wiped, the rest is left alone, and the scope is not reported. The work may
leave handles on the scope behind; what is marked through these is wiped, with one report, when
the last of them goes. -/
theorem flushed_once_however_work_ends {left : Nat}
    (howned : ownedAfter v.scopes.size 1 (actsOf work v) = some left) :
    (unitRun work v).1 =
        ((work v.scopes.size).result v.guardArmed, [(atEnd work v).flushReport v.scopes.size]) ∧
      Cleared v.scopes.size (atEnd work v) (unitRun work v).2 ∧
      (unitRun work v).2.events = (atEnd work v).events ∧
      ((∀ other, .dropScope other ∈ actsOf work v → other = v.scopes.size) →
        (unitRun work v).2.events = v.events) ∧
      (unitRun work v).2.handlesOnScope v.scopes.size = left ∧
      ∀ late, ownedAfter v.scopes.size left late = some 1 →
        Swept v.scopes.size late (unitRun work v).2 := by
  have hstart : Holding v.scopes.size (1 + 1) v.guardArmed := holding_guardArmed v
  have hend : Holding v.scopes.size (left + 1) (atEnd work v) := hstart.performed 1 howned
  have hleft : Holding v.scopes.size left ((atEnd work v).discharged v.scopes.size) :=
    hend.discharged
  rw [unitRun_eq]
  refine ⟨rfl, cleared_discharged _ _, discharged_events _ _, ?_, hleft.count, ?_⟩
  · intro hquiet
    rw [discharged_events]
    exact events_performed 1 hstart howned (Nat.succ_pos left) hquiet
  · intro late hlate
    exact swept_of_owned hleft hlate

end

/-- Work behind one older value: it makes two texts, tracks the first of them, parks a copy of its
scope, and is then abandoned. -/
def parkingWork (scope : ScopeId) : Activity (Ending Unit) :=
  .act (.create (.text "early")) fun _ =>
  .act (.create (.text "late")) fun _ =>
  .act (.mark scope (.one 1)) fun _ =>
  .act (.copyScope scope) fun _ =>
  .act (.dropScope scope) fun _ => .ended .cancelled

/-- Abandoned work has its text wiped without a report; a text that is marked later, through the
parked copy, is wiped with one report when the copy goes. -/
theorem abandoned_work_flushed :
    let run := unitRun parkingWork (Vault.ofTexts ["old"])
    let late := performed [.mark 1 (.one 2)] run.2
    let swept := (Act.dropScope 1).after late
    run.1 = (.cancelled, [⟨1, 0⟩]) ∧ run.2.contents? 1 = some (.text "") ∧ run.2.events = [] ∧
      late.contents? 2 = some (.text "late") ∧ swept.contents? 2 = some (.text "") ∧
      swept.events = [.scopeDropped 1] := by
  intro run late swept
  have howned : ownedAfter 1 1 (actsOf parkingWork (Vault.ofTexts ["old"])) = some 1 := rfl
  obtain ⟨hended, hcleared, hevents, -, -, hlate⟩ :=
    flushed_once_however_work_ends parkingWork (Vault.ofTexts ["old"]) howned
  have hswept : Swept 1 [.mark 1 (.one 2)] run.2 := hlate _ rfl
  refine ⟨hended.trans ?_, (hcleared.wiped 1 ?_ ?_).trans ?_, hevents, ?_,
    (hswept.cleared.wiped 2 ?_ ?_).trans ?_, hswept.reported.trans ?_⟩
  · have hreport : (atEnd parkingWork (Vault.ofTexts ["old"])).flushReport 1 = ⟨1, 0⟩ := by
      decide +kernel
    exact congrArg (fun report => (Ending.cancelled, [report])) hreport
  all_goals decide +kernel

end FieldVault
