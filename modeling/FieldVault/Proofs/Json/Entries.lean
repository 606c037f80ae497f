import Mathlib.Data.List.Perm.Basic
import FieldVault.Json

/-!
# Lists of entries as maps

A list of entries in the order of their names has one entry for each name (`nodup_of_pairwise`), so
it is a map: it is told by its entries (`eq_of_perm_of_pairwise`), and each of them is the one found
under its name (`lookup?_of_mem`). Setting entries of distinct new names one after the other puts
them among those there were (`setAll_perm`), so the result does not depend on the order in which
they come (`setAll_eq_of_perm`).
-/

set_option autoImplicit false

namespace FieldVault.Json

variable {α : Type} {name : String} {value : α} {kept entries others : List (String × α)}

/-! ### Looking up -/

theorem mem_of_lookup? (h : lookup? name entries = some value) : (name, value) ∈ entries := by
  induction entries with
  | nil => cases h
  | cons first rest ih =>
    rw [lookup?] at h
    split at h
    · rename_i hname
      have hvalue : first.2 = value := Option.some.inj h
      rw [hname, ← hvalue]
      exact List.mem_cons_self
    · exact List.mem_cons_of_mem _ (ih h)

theorem lookup?_eq_none_iff : lookup? name entries = none ↔ name ∉ entries.map Prod.fst := by
  induction entries with
  | nil => simp [lookup?]
  | cons first rest ih =>
    rw [lookup?, List.map_cons, List.mem_cons, not_or, ← ih]
    split
    · rename_i hname
      simp [hname]
    · rename_i hname
      exact (and_iff_right hname).symm

theorem isSome_lookup?_iff :
    (lookup? name entries).isSome = true ↔ name ∈ entries.map Prod.fst := by
  rw [Option.isSome_iff_ne_none, ne_eq, lookup?_eq_none_iff, not_not]

/-- An entry is found if no other has its name. -/
theorem lookup?_of_mem (hnodup : (entries.map Prod.fst).Nodup) (h : (name, value) ∈ entries) :
    lookup? name entries = some value := by
  induction entries with
  | nil => cases h
  | cons first rest ih =>
    obtain ⟨hfirst, hrest⟩ := List.nodup_cons.1 hnodup
    rw [lookup?]
    rcases List.mem_cons.1 h with rfl | hmem
    · exact if_pos rfl
    · have hne : name ≠ first.1 := by
        intro hname
        rw [← hname] at hfirst
        exact hfirst (List.mem_map.2 ⟨(name, value), hmem, rfl⟩)
      rw [if_neg hne]
      exact ih hrest hmem

/-! ### Entries in the order of their names -/

/-- Entries in order have distinct names. -/
theorem nodup_of_pairwise (h : entries.Pairwise fun a b => a.1 < b.1) :
    (entries.map Prod.fst).Nodup := by
  rw [List.Nodup, List.pairwise_map]
  apply h.imp
  intro a b hlt heq
  rw [heq] at hlt
  exact String.lt_irrefl b.1 hlt

/-- Entries in order are told by which they are. -/
theorem eq_of_perm_of_pairwise (hperm : entries.Perm others)
    (h : entries.Pairwise fun a b => a.1 < b.1) (h' : others.Pairwise fun a b => a.1 < b.1) :
    entries = others := by
  apply hperm.eq_of_pairwise ?_ h h'
  intro a b _ _ hlt hgt
  exact absurd hgt (String.lt_asymm hlt)

/-! ### The value last given -/

/-- The value that entries give last under a key. -/
def GivenLast {κ : Type} (entries : List (κ × α)) (key : κ) (value : α) : Prop :=
  ∃ before after, entries = before ++ (key, value) :: after ∧ ∀ entry ∈ after, entry.1 ≠ key

section GivenLast

variable {κ : Type} {key : κ} {given : List (κ × α)}

theorem GivenLast.mem (h : GivenLast given key value) : (key, value) ∈ given := by
  obtain ⟨before, after, rfl, -⟩ := h
  simp

theorem not_givenLast_nil : ¬ GivenLast [] key value := by
  intro h
  cases h.mem

theorem givenLast_cons_iff {entry : κ × α} :
    GivenLast (entry :: given) key value ↔
      GivenLast given key value ∨ entry = (key, value) ∧ ∀ later ∈ given, later.1 ≠ key := by
  constructor
  · rintro ⟨before, after, heq, hafter⟩
    cases before with
    | nil =>
      obtain ⟨rfl, rfl⟩ := List.cons.inj heq
      exact .inr ⟨rfl, hafter⟩
    | cons first before =>
      obtain ⟨-, rfl⟩ := List.cons.inj heq
      exact .inl ⟨before, after, rfl, hafter⟩
  · rintro (⟨before, after, rfl, hafter⟩ | ⟨rfl, hlater⟩)
    · exact ⟨entry :: before, after, rfl, hafter⟩
    · exact ⟨[], given, rfl, hlater⟩

/-- A key that is given has a value that is given last. -/
theorem exists_givenLast_iff :
    (∃ value, GivenLast given key value) ↔ ∃ entry ∈ given, entry.1 = key := by
  constructor
  · rintro ⟨value, h⟩
    exact ⟨_, h.mem, rfl⟩
  · intro h
    induction given with
    | nil =>
      obtain ⟨entry, hentry, -⟩ := h
      cases hentry
    | cons first rest ih =>
      by_cases hlater : ∃ later ∈ rest, later.1 = key
      · obtain ⟨value, hvalue⟩ := ih hlater
        exact ⟨value, givenLast_cons_iff.2 (.inl hvalue)⟩
      · obtain ⟨entry, hentry, rfl⟩ := h
        rcases List.mem_cons.1 hentry with rfl | hmem
        · refine ⟨entry.2, givenLast_cons_iff.2 (.inr ⟨rfl, ?_⟩)⟩
          intro later hmem hkey
          exact hlater ⟨later, hmem, hkey⟩
        · exact absurd ⟨entry, hmem, rfl⟩ hlater

end GivenLast

/-! ### Setting entries -/

/-- A new name is put among the others. -/
theorem insertMember_perm (value : α) (h : name ∉ entries.map Prod.fst) :
    (insertMember name value entries).Perm ((name, value) :: entries) := by
  induction entries with
  | nil => exact .refl _
  | cons first rest ih =>
    obtain ⟨hne, hrest⟩ := not_or.1 (mt List.mem_cons.2 h)
    rw [insertMember, if_neg hne]
    split
    · exact .refl _
    · exact ((ih hrest).cons first).trans (.swap (name, value) first rest)

/-- What is in a map once a name was set: the new entry, and all others of another name. -/
theorem mem_insertMember_iff {entry : String × α} (h : entries.Pairwise fun a b => a.1 < b.1) :
    entry ∈ insertMember name value entries ↔
      entry = (name, value) ∨ entry.1 ≠ name ∧ entry ∈ entries := by
  induction entries with
  | nil => simp [insertMember]
  | cons first rest ih =>
    obtain ⟨hfirst, hrest⟩ := List.pairwise_cons.1 h
    rw [insertMember]
    split
    · rename_i hlt
      -- all names that there are come later
      have hne : ∀ other ∈ first :: rest, other.1 ≠ name := by
        intro other hother heq
        rcases List.mem_cons.1 hother with rfl | hother
        · rw [heq] at hlt
          exact String.lt_irrefl _ hlt
        · have hbefore := String.lt_trans hlt (hfirst other hother)
          rw [heq] at hbefore
          exact String.lt_irrefl _ hbefore
      rw [List.mem_cons]
      exact or_congr_right ⟨fun hmem => ⟨hne entry hmem, hmem⟩, And.right⟩
    · split
      · rename_i hnot hname
        have hne : ∀ other ∈ rest, other.1 ≠ name := by
          intro other hother heq
          have hlt := hfirst other hother
          rw [heq, hname] at hlt
          exact String.lt_irrefl _ hlt
        rw [List.mem_cons, List.mem_cons]
        constructor
        · rintro (hnew | hmem)
          · exact .inl hnew
          · exact .inr ⟨hne entry hmem, .inr hmem⟩
        · rintro (hnew | ⟨hother, rfl | hmem⟩)
          · exact .inl hnew
          · exact absurd hname.symm hother
          · exact .inr hmem
      · rename_i hnot hname
        rw [List.mem_cons, ih hrest, List.mem_cons]
        constructor
        · rintro (rfl | hnew | ⟨hother, hmem⟩)
          · exact .inr ⟨Ne.symm hname, .inl rfl⟩
          · exact .inl hnew
          · exact .inr ⟨hother, .inr hmem⟩
        · rintro (hnew | ⟨hother, heq | hmem⟩)
          · exact .inr (.inl hnew)
          · exact .inl heq
          · exact .inr (.inr ⟨hother, hmem⟩)

/-- Entries set one after the other among those there are. -/
def setAll (kept entries : List (String × α)) : List (String × α) :=
  entries.foldl (fun kept entry => insertMember entry.1 entry.2 kept) kept

theorem setAll_cons (kept : List (String × α)) (entry : String × α) (rest : List (String × α)) :
    setAll kept (entry :: rest) = setAll (insertMember entry.1 entry.2 kept) rest := rfl

theorem setAll_append (kept first second : List (String × α)) :
    setAll kept (first ++ second) = setAll (setAll kept first) second := List.foldl_append

/-- What is in a map once entries were set: those given last for their name, and all others whose
name is not among them. -/
theorem mem_setAll_iff (h : kept.Pairwise fun a b => a.1 < b.1) :
    (name, value) ∈ setAll kept entries ↔ GivenLast entries name value ∨
      (∀ entry ∈ entries, entry.1 ≠ name) ∧ (name, value) ∈ kept := by
  induction entries generalizing kept with
  | nil => simp [setAll, not_givenLast_nil]
  | cons first rest ih =>
    rw [setAll_cons, ih (pairwise_insertMember h), mem_insertMember_iff h, givenLast_cons_iff,
      List.forall_mem_cons]
    constructor
    · rintro (hlast | ⟨hrest, heq | ⟨hne, hmem⟩⟩)
      · exact .inl (.inl hlast)
      · exact .inl (.inr ⟨heq.symm, hrest⟩)
      · exact .inr ⟨⟨Ne.symm hne, hrest⟩, hmem⟩
    · rintro ((hlast | ⟨rfl, hrest⟩) | ⟨⟨hne, hrest⟩, hmem⟩)
      · exact .inl hlast
      · exact .inr ⟨hrest, .inl rfl⟩
      · exact .inr ⟨hrest, .inr ⟨Ne.symm hne, hmem⟩⟩

theorem pairwise_setAll (h : kept.Pairwise fun a b => a.1 < b.1) :
    (setAll kept entries).Pairwise fun a b => a.1 < b.1 := by
  induction entries generalizing kept with
  | nil => exact h
  | cons entry rest ih => exact ih (pairwise_insertMember h)

/-- Entries with distinct names that are all new are put among the others. -/
theorem setAll_perm (h : (entries.map Prod.fst ++ kept.map Prod.fst).Nodup) :
    (setAll kept entries).Perm (entries ++ kept) := by
  induction entries generalizing kept with
  | nil => exact .refl _
  | cons entry rest ih =>
    obtain ⟨hentry, -⟩ := List.nodup_cons.1 h
    have hinsert : (insertMember entry.1 entry.2 kept).Perm (entry :: kept) := by
      apply insertMember_perm
      intro hmem
      exact hentry (List.mem_append_right _ hmem)
    -- the names still to be set and those that are there are the same as before
    have hnames : (rest.map Prod.fst ++
        (insertMember entry.1 entry.2 kept).map Prod.fst).Nodup := by
      refine (((hinsert.map Prod.fst).append_left _).trans List.perm_middle).nodup_iff.2 ?_
      exact h
    exact (ih hnames).trans ((hinsert.append_left _).trans List.perm_middle)

/-- Names are new and distinct if those of a first part are, and the others once this is set. -/
theorem nodup_append_setAll_iff {first second : List (String × α)} :
    ((first ++ second).map Prod.fst ++ kept.map Prod.fst).Nodup ↔
      (first.map Prod.fst ++ kept.map Prod.fst).Nodup ∧
        (second.map Prod.fst ++ (setAll kept first).map Prod.fst).Nodup := by
  have hswap : ((first ++ second).map Prod.fst ++ kept.map Prod.fst).Perm
      (second.map Prod.fst ++ (first.map Prod.fst ++ kept.map Prod.fst)) := by
    rw [List.map_append, ← List.append_assoc]
    exact List.perm_append_comm.append_right _
  have hset (h : (first.map Prod.fst ++ kept.map Prod.fst).Nodup) :
      ((setAll kept first).map Prod.fst).Perm (first.map Prod.fst ++ kept.map Prod.fst) := by
    rw [← List.map_append]
    exact (setAll_perm h).map Prod.fst
  rw [hswap.nodup_iff]
  constructor
  · intro h
    have hfirst := h.sublist (List.sublist_append_right _ _)
    exact ⟨hfirst, ((hset hfirst).append_left _).nodup_iff.2 h⟩
  · rintro ⟨hfirst, h⟩
    exact ((hset hfirst).append_left _).nodup_iff.1 h

/-- The order in which entries with distinct new names are set does not matter. -/
theorem setAll_eq_of_perm (hperm : entries.Perm others)
    (h : (entries.map Prod.fst ++ kept.map Prod.fst).Nodup)
    (hkept : kept.Pairwise fun a b => a.1 < b.1) : setAll kept entries = setAll kept others := by
  have hothers : (others.map Prod.fst ++ kept.map Prod.fst).Nodup :=
    ((hperm.map Prod.fst).append_right _).nodup_iff.1 h
  apply eq_of_perm_of_pairwise ?_ (pairwise_setAll hkept) (pairwise_setAll hkept)
  exact (setAll_perm h).trans ((hperm.append_right kept).trans (setAll_perm hothers).symm)

end FieldVault.Json
