import FieldVault.Proofs.Session.Accounts
import FieldVault.Proofs.Vault.Contents
import Mathlib.Data.List.Induction

/-!
# What values hold

Along every run of commands, a value that the client still has holds exactly what it was created
with, or what wiping leaves of that: the latter if and only if, at some command after its creation,
a scope that tracked it was flushed or lost its last handle, or the value itself was destroyed
(`contents_of_held`). So no tracked value outlives its scope unwiped, nothing that was wiped comes
back, and the end of a scope does not touch a value that the scope does not track, whatever that
value holds.
-/

set_option autoImplicit false

namespace FieldVault.Session

open Wipe
open Vault (Keeps)

/-! ### What a command wipes -/

/-- A command ends a scope by flushing it, or by taking the last name it stands under. -/
def Ends (s : Session) (command : Command) (scope : ScopeId) : Prop :=
  (∃ name, command = .flush name ∧ s.scopes.lookup name = some scope) ∨
    scope ∈ s.heldScopes ∧ scope ∉ (step command s).2.heldScopes

/-- A command wipes a value if it ends a scope that tracks it, or if it destroys it. -/
def Wipes (s : Session) (command : Command) (id : ValueId) : Prop :=
  (∃ scope, s.Ends command scope ∧ id ∈ s.vault.members scope) ∨
    ∃ name, command = .destroyKey name ∧ s.handles.lookup name = some id

/-- One of the commands wipes a value. -/
def WipedIn (id : ValueId) : List Command → Session → Prop
  | [], _ => False
  | command :: rest, s => s.Wipes command id ∨ WipedIn id rest (step command s).2

/-- A value is wiped in the course of some commands, or by the one after them. -/
theorem wipedIn_concat (id : ValueId) (commands : List Command) (command : Command) (s : Session) :
    WipedIn id (commands ++ [command]) s ↔
      WipedIn id commands s ∨ (run commands s).Wipes command id := by
  induction commands generalizing s with
  | nil =>
    change s.Wipes command id ∨ False ↔ False ∨ s.Wipes command id
    rw [or_false, false_or]
  | cons first rest ih =>
    change s.Wipes first id ∨ WipedIn id (rest ++ [command]) (step first s).2 ↔
      (s.Wipes first id ∨ WipedIn id rest (step first s).2) ∨
        (run rest (step first s).2).Wipes command id
    rw [ih, or_assoc]

variable {s t : Session} {command : Command} {id : ValueId}

/-- A calm command wipes nothing unless a scope loses its last name. -/
theorem wipes_iff_of_calm (hcalm : s.Calm command) :
    s.Wipes command id ↔ ∃ scope, scope ∈ s.heldScopes ∧
      scope ∉ (step command s).2.heldScopes ∧ id ∈ s.vault.members scope := by
  constructor
  · rintro (⟨scope, ⟨name, hcommand, hname⟩ | ⟨hin, hout⟩, hmember⟩ | ⟨name, hcommand, hname⟩)
    · rw [hcalm.1 name hcommand] at hname
      cases hname
    · exact ⟨scope, hin, hout, hmember⟩
    · rw [hcalm.2 name hcommand] at hname
      cases hname
  · rintro ⟨scope, hin, hout, hmember⟩
    exact .inl ⟨scope, .inr ⟨hin, hout⟩, hmember⟩

/-- A calm command that leaves the names of scopes alone wipes nothing. -/
theorem keeps_of_calm (hcalm : s.Calm command) (ht : (step command s).2 = t)
    (hscopes : t.scopes = s.scopes) (hkeeps : Keeps Vault.untouched s.vault t.vault) :
    Keeps (s.Wipes command) s.vault t.vault := by
  refine hkeeps.congr fun id => ⟨fun h => h.elim, fun h => ?_⟩
  obtain ⟨scope, hin, hout, -⟩ := (wipes_iff_of_calm hcalm).1 h
  rw [ht, heldScopes, hscopes] at hout
  exact hout hin

/-- A calm command that gives up a handle on a scope, or none, wipes what the scopes tracked that
lose their last name. -/
theorem keeps_of_released {v : Vault} (released : Option ScopeId) (hs : Accounts [] [] s)
    (hcalm : s.Calm command) (ht : (step command s).2 = t)
    (hvault : t.vault = released.elim v v.scopeReleased)
    (hreleased : ∀ scope, released = some scope → scope ∈ s.heldScopes)
    (hcells : v.cells = s.vault.cells)
    (hmembers : ∀ scope, v.members scope = s.vault.members scope)
    (hhandles : ∀ scope, s.vault.handlesOnScope scope ≤ v.handlesOnScope scope) :
    Keeps (s.Wipes command) s.vault t.vault := by
  have hbefore : Keeps Vault.untouched s.vault v := .of_cells_eq hcells
  have hafter : Accounts [] [] t := ht ▸ accounts_step hs command
  have hwipes (id : ValueId) : s.Wipes command id ↔ ∃ scope, 0 < s.vault.handlesOnScope scope ∧
      t.vault.handlesOnScope scope = 0 ∧ id ∈ s.vault.members scope := by
    rw [wipes_iff_of_calm hcalm, ht]
    simp only [hs.mem_heldScopes_iff, hafter.mem_heldScopes_iff, Nat.not_lt, Nat.le_zero]
  cases released with
  | none =>
    rw [hvault]
    refine hbefore.congr fun id => ⟨fun h => h.elim, fun h => ?_⟩
    obtain ⟨scope, hpos, hzero, -⟩ := (hwipes id).1 h
    have hle := hhandles scope
    rw [hvault, Option.elim_none] at hzero
    omega
  | some last =>
    have hlast := hs.mem_heldScopes_iff.1 (hreleased last rfl)
    rw [Option.elim_some] at hvault
    rw [hvault]
    refine (hbefore.trans (.scopeReleased v last)).congr fun id => ?_
    rw [hwipes id, hmembers last]
    have hzero (scope : ScopeId) : t.vault.handlesOnScope scope =
        v.handlesOnScope scope - if last = scope then 1 else 0 := by
      rw [hvault, Vault.handlesOnScope_scopeReleased]
    constructor
    · rintro ⟨hone, hmember⟩
      refine ⟨last, hlast, ?_, hmember⟩
      rw [hzero, if_pos rfl]
      omega
    · rintro ⟨scope, hpos, hgone, hmember⟩
      have hle := hhandles scope
      rw [hzero] at hgone
      by_cases heq : last = scope
      · subst heq
        rw [if_pos rfl] at hgone
        exact ⟨by omega, hmember⟩
      · rw [if_neg heq] at hgone
        omega

/-- A handle given up under a name, or none. -/
theorem keeps_letGo (v : Vault) (released : Option ValueId) :
    Keeps Vault.untouched v (released.elim v v.letGo) := by
  cases released with
  | none => exact .of_cells_eq rfl
  | some id => exact .letGo v id

/-- Keeping a value wipes nothing. -/
theorem keeps_kept (s : Session) (target : Option String) (id : ValueId) :
    Keeps Vault.untouched s.vault (s.kept target id).vault := by
  cases target with
  | none => exact .letGo s.vault id
  | some name => exact keeps_letGo s.vault (s.handles.lookup name)

/-- However a session changes, the values that stay alive keep their contents, except those that the
command wipes. -/
theorem keeps_turn (h : Accounts [] [] s) (ht : (step command s).2 = t)
    (hturn : Turn s command t) : Keeps (s.Wipes command) s.vault t.vault := by
  cases hturn with
  | idle hcalm => exact keeps_of_calm hcalm ht rfl (.of_cells_eq rfl)
  | worked hcalm _ hgrows => exact keeps_of_calm hcalm ht rfl (.of_grows hgrows)
  | made target hcalm _ hgrows =>
    refine keeps_of_calm hcalm ht (kept_scopes _ _ _) ?_
    exact (Keeps.of_grows hgrows).trans (keeps_kept (s.withVault _) target _)
  | copied target hcalm hid =>
    refine keeps_of_calm hcalm ht (kept_scopes _ _ _) ?_
    have halive := h.mem_held_iff.1 (List.mem_append_left _ hid)
    exact (Keeps.retained halive).trans (keeps_kept (s.withVault _) target _)
  | dropped hcalm _ => exact keeps_of_calm hcalm ht rfl (.letGo _ _)
  | @destroyed name id hcommand hname =>
    refine (Keeps.wipe s.vault id).congr fun other => ⟨?_, ?_⟩
    · rintro rfl
      exact .inr ⟨name, hcommand, hname⟩
    · rintro (⟨scope, ⟨flushed, hflush, -⟩ | ⟨hin, hout⟩, -⟩ | ⟨again, hagain, hother⟩)
      · rw [hcommand] at hflush
        cases hflush
      · rw [ht] at hout
        exact absurd hin hout
      · rw [hcommand] at hagain
        cases hagain
        exact Option.some.inj (hother.symm.trans hname)
  | @begun name hcalm hin =>
    refine keeps_of_released (s.scopes.lookup name) h hcalm ht rfl
      (fun _ hname => mem_map_snd_of_lookup hname) rfl (Vault.members_scopeBegun _) fun other => ?_
    rw [withVault_vault, Vault.handlesOnScope_scopeBegun]
    exact Nat.le_add_right _ _
  | @scopeCopied name target scope hcalm hin hname =>
    have hlt := h.lt_of_mem_heldScopes (mem_map_snd_of_lookup hname)
    refine keeps_of_released (s.scopes.lookup target) h hcalm ht rfl
      (fun _ hname => mem_map_snd_of_lookup hname) rfl (Vault.members_scopeRetained _ _)
      fun other => ?_
    rw [withVault_vault, Vault.handlesOnScope_scopeRetained hlt]
    exact Nat.le_add_right _ _
  | @scopeDropped name scope hcalm hin hname =>
    refine keeps_of_released (some scope) h hcalm ht rfl (fun _ hsome => ?_) rfl (fun _ => rfl)
      fun _ => Nat.le_refl _
    rw [← Option.some.inj hsome]
    exact mem_map_snd_of_lookup hname
  | replaced hcalm _ _ => exact keeps_of_calm hcalm ht rfl (.of_cells_eq rfl)
  | @flushed name scope hcommand hname =>
    refine (Keeps.flushed s.vault scope).congr fun other => ⟨?_, ?_⟩
    · intro hmember
      exact .inl ⟨scope, .inl ⟨name, hcommand, hname⟩, hmember⟩
    · rintro (⟨ended, ⟨again, hagain, hended⟩ | ⟨hin, hout⟩, hmember⟩ | ⟨key, hkey, -⟩)
      · rw [hcommand] at hagain
        cases hagain
        rwa [← Option.some.inj (hended.symm.trans hname)]
      · rw [ht] at hout
        exact absurd hin hout
      · rw [hcommand] at hkey
        cases hkey
  | holderMade name hcalm =>
    exact keeps_of_calm hcalm ht rfl (keeps_letGo s.vault _)
  | @masterSet name value holder hcalm hname hunset hcreates =>
    have hgrows : Vault.Grows [] s.vault.scopes.size [s.vault.cells.size] s.vault
        (s.vault.addCell ⟨.text value, 1⟩) := (Vault.Grows.refl s.vault).addCell (.text value)
    exact keeps_of_calm hcalm ht rfl (.of_grows hgrows)

/-! ### What a command creates -/

/-- A value that is alive and was not there before is one that the command creates, with the
contents that it creates it with. -/
theorem exists_creates_of_turn (hturn : Turn s command t) (hnew : s.vault.cells.size ≤ id)
    (halive : 0 < t.vault.handlesOn id) :
    ∃ original, s.Creates command original ∧ t.vault.contents? id = some original := by
  -- most changes make no value at all
  have hmade : ¬ t.vault.cells.size = s.vault.cells.size := by
    intro hsize
    exact Nat.not_lt_of_le hnew (hsize ▸ Vault.lt_of_handlesOn_pos halive)
  cases hturn with
  | idle => exact absurd rfl hmade
  | worked _ _ hgrows =>
    rw [withVault_vault, hgrows.newer id hnew] at halive
    cases halive
  | @made scope v made contents target _ _ hgrows hcontents hcreates =>
    have hkeeps := keeps_kept (s.withVault v) target made
    have hsize : id < v.cells.size := by
      have hlt := Vault.lt_of_handlesOn_pos halive
      rwa [size_cells_kept] at hlt
    -- of the new values only the one made has a handle
    have hbefore := hkeeps.alive id hsize halive
    rw [withVault_vault, hgrows.newer id hnew, List.count_pos_iff, List.mem_singleton] at hbefore
    refine ⟨contents, hcreates, ?_⟩
    rw [hkeeps.contents_of_not_wiped id hsize halive fun h => h, withVault_vault, hbefore]
    exact hcontents
  | copied target => exact absurd ((size_cells_kept _ _ _).trans Array.size_modify) hmade
  | dropped => exact absurd Array.size_modify hmade
  | destroyed => exact absurd Array.size_modify hmade
  | begun => exact absurd (size_cells_keptScope _ _ _) hmade
  | scopeCopied => exact absurd (size_cells_keptScope _ _ _) hmade
  | scopeDropped => exact absurd (Vault.size_cells_scopeReleased _ _) hmade
  | replaced => exact absurd rfl hmade
  | flushed => exact absurd (Vault.size_cells_flushed _ _) hmade
  | holderMade => exact absurd (size_cells_keptHolder _ _ _) hmade
  | @masterSet name value holder _ _ _ hcreates =>
    have hlt := Vault.lt_of_handlesOn_pos halive
    have hid : id = s.vault.cells.size := by
      change id < (s.vault.cells.push _).size at hlt
      rw [Array.size_push] at hlt
      exact Nat.le_antisymm (Nat.le_of_lt_succ hlt) hnew
    refine ⟨.text value, hcreates, ?_⟩
    rw [hid]
    exact Vault.contents?_addCell_size _ _

/-! ### Runs -/

theorem run_concat (commands : List Command) (command : Command) (s : Session) :
    run (commands ++ [command]) s = (step command (run commands s)).2 := by
  rw [run, List.foldl_append]
  rfl

/-- A value that the client has was created by one of the commands, and it holds what it was
created with, or what wiping leaves of it if a later command wiped it. -/
theorem contents_of_held (nonces : Nat → Gcm.Nonce) (commands : List Command) {id : ValueId}
    (hid : id ∈ (run commands (empty nonces)).held) :
    ∃ before command later original, commands = before ++ command :: later ∧
      let s := run before (empty nonces)
      let t := (step command s).2
      s.vault.cells.size ≤ id ∧ id < t.vault.cells.size ∧ s.Creates command original ∧
        (WipedIn id later t →
          (run commands (empty nonces)).vault.contents? id = some original.wiped) ∧
        (¬ WipedIn id later t →
          (run commands (empty nonces)).vault.contents? id = some original) := by
  induction commands using List.reverseRecOn with
  | nil => cases hid
  | append_singleton commands command ih =>
    have hs := accounts_run (accounts_empty nonces) commands
    have ht := accounts_step hs command
    rw [run_concat] at hid ⊢
    have halive := ht.mem_held_iff.1 hid
    have hturn := turn_step (run commands (empty nonces)) command
    by_cases hold : id < (run commands (empty nonces)).vault.cells.size
    · -- it was there before the last command
      have hkeeps := keeps_turn hs rfl hturn
      obtain ⟨before, first, later, original, rfl, hfrom, hto, hcreates, hwiped, hkept⟩ :=
        ih (hs.mem_held_iff.2 (hkeeps.alive id hold halive))
      have hrun : run (before ++ first :: later) (empty nonces) =
          run later (step first (run before (empty nonces))).2 := by
        rw [run, List.foldl_append]
        rfl
      rw [hrun] at hkeeps hwiped hkept hold halive ⊢
      refine ⟨before, first, later ++ [command], original, by simp, hfrom, hto, hcreates,
        fun h => ?_, fun h => ?_⟩
      · by_cases hnow : (run later (step first (run before (empty nonces))).2).Wipes command id
        · rw [hkeeps.contents_of_wiped id hold halive hnow]
          by_cases hearlier : WipedIn id later (step first (run before (empty nonces))).2
          · rw [hwiped hearlier, Option.map_some, Contents.wiped_wiped]
          · rw [hkept hearlier, Option.map_some]
        · rw [hkeeps.contents_of_not_wiped id hold halive hnow]
          exact hwiped (((wipedIn_concat id later command _).1 h).resolve_right hnow)
      · rw [wipedIn_concat, not_or] at h
        rw [hkeeps.contents_of_not_wiped id hold halive h.2]
        exact hkept h.1
    · -- the last command created it
      have hnew := Nat.le_of_not_lt hold
      obtain ⟨original, hcreates, hcontents⟩ := exists_creates_of_turn hturn hnew halive
      exact ⟨commands, command, [], original, rfl, hnew, Vault.lt_of_handlesOn_pos halive, hcreates,
        fun h => h.elim, fun _ => hcontents⟩

/-- A flushed text is empty, and its duplicate still holds what it was created with. -/
theorem text_wiped_and_duplicate_kept :
    let nonces : Nat → Gcm.Nonce := fun _ => ⟨Bytes.zeros 12, rfl⟩
    let commands : List Command := [.newText (some "t") "x", .duplicate "t" (some "d"),
      .beginScope "s", .mark "s" (.one "t"), .flush "s"]
    let s := run commands (empty nonces)
    (0 ∈ s.held ∧ s.vault.contents? 0 = some (.text "")) ∧
      (1 ∈ s.held ∧ s.vault.contents? 1 = some (.text "x")) ∧
      ∀ id ∈ [0, 1], ∃ before command later original, commands = before ++ command :: later ∧
        (run before (empty nonces)).Creates command original ∧
        (s.vault.contents? id = some original.wiped ∨ s.vault.contents? id = some original) := by
  intro nonces commands s
  have hfirst : 0 ∈ s.held := by decide
  have hsecond : 1 ∈ s.held := by decide
  refine ⟨⟨hfirst, by decide⟩, ⟨hsecond, by decide⟩, fun id hid => ?_⟩
  have hheld : id ∈ s.held := by
    rcases List.mem_cons.1 hid with rfl | hid
    · exact hfirst
    · rwa [List.mem_singleton.1 hid]
  obtain ⟨before, command, later, original, hsplit, -, -, hcreates, hwiped, hkept⟩ :=
    contents_of_held nonces commands hheld
  refine ⟨before, command, later, original, hsplit, hcreates, ?_⟩
  by_cases h : WipedIn id later (step command (run before (empty nonces))).2
  · exact .inl (hwiped h)
  · exact .inr (hkept h)

end FieldVault.Session
