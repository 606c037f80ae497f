import FieldVault.Proofs.Document.Traversal
import Mathlib.Data.List.Perm.Basic

/-!
# What a visitor is called for

A visitor is called for the texts whose locations match one of the paths step by step: path by path
in the order given, and for each path once for each of its texts, in the order of the items of
arrays. What it answers takes the place of the text and nothing else is touched, whatever the
answers depend on (`matching_texts_visited`). If no path is listed twice then no text is visited
twice, and a visitor that answers by path and text alone leaves the same document for every order of
the paths.
-/

set_option autoImplicit false

namespace FieldVault.Document

open Json

/-- A call of a visitor: the path and the text that it is given. -/
abbrev Call := String × String

section

variable {ε : Type}

/-- A visitor that notes its calls. It answers by the path, the text and all its calls before. -/
def noting (answer : List Call → String → String → Except ε String) (path text : String) :
    StateM (List Call) (Except ε String) := fun calls =>
  (answer calls path text, calls ++ [(path, text)])

/-- The calls for a list of targets, one for each, up to the first failure: each is given the text
that stands at its location, and its answer is put there. The calls and the document are given
before and after, and the result counts the calls. -/
inductive Visits (answer : List Call → String → String → Except ε String) :
    List Target → List Call → Json → List Call → Json → Except ε Nat → Prop where
  | done (calls : List Call) (document : Json) :
    Visits answer [] calls document calls document (.ok 0)
  | call {path : String} {location : Location} {rest : List Target} {calls after : List Call}
    {document changed : Json} {text new : String} {result : Except ε Nat}
    (htext : document.textAt? location = some text) (hanswer : answer calls path text = .ok new)
    (hrest : Visits answer rest (calls ++ [(path, text)]) (document.setText location new) after
      changed result) :
    Visits answer ((path, location) :: rest) calls document after changed (result.map (1 + ·))
  | failure {path : String} {location : Location} (rest : List Target) {calls : List Call}
    {document : Json} {text : String} {e : ε} (htext : document.textAt? location = some text)
    (hanswer : answer calls path text = .error e) :
    Visits answer ((path, location) :: rest) calls document (calls ++ [(path, text)]) document
      (.error e)

end

/-- A location comes before another one if it leads to an earlier item of the same array. -/
inductive Location.Before : Location → Location → Prop where
  | item {i j : Nat} (h : i < j) (rest other : Location) :
    Before (.item i :: rest) (.item j :: other)
  | step (step : Step) {rest other : Location} (h : Before rest other) :
    Before (step :: rest) (step :: other)

/-- The value with nothing left of the texts at some locations. -/
def blank (list : List Location) (value : Json) : Json :=
  list.foldl (fun value location => value.setText location "") value

variable {list : List Target} {document : Json} {location : Location}

/-! ### Locations in order -/

/-- Children in order, whatever further steps are taken in them. -/
theorem pairwise_before_children (segment : Segment) (value : Json) :
    (children segment value).Pairwise fun entry next =>
      ∀ rest other, Location.Before (entry.1 :: rest) (next.1 :: other) := by
  cases segment with
  | member name =>
    cases value with
    | obj members => cases h : lookup? name members <;> simp [children, h]
    | _ => exact .nil
  | items =>
    cases value with
    | arr items =>
      rw [children, List.pairwise_map]
      -- the items are numbered from the first on
      have hnumbers : (items.zipIdx.map Prod.snd).Pairwise (· < ·) := by
        rw [List.zipIdx_map_snd]
        exact List.pairwise_lt_range'
      exact (List.pairwise_map.1 hnumbers).imp fun hlt rest other => .item hlt rest other
    | _ => exact .nil

/-- Segments lead to locations in order. -/
theorem pairwise_before_locations (segments : List Segment) (value : Json) :
    (locations segments value).Pairwise Location.Before := by
  induction segments generalizing value with
  | nil => cases h : value.text? <;> simp [locations, h]
  | cons segment segments ih =>
    rw [locations, List.pairwise_flatMap]
    constructor
    · rintro ⟨step, child⟩ -
      exact List.pairwise_map.2 ((ih child).imp (.step step))
    · refine (pairwise_before_children segment value).imp ?_
      intro entry next hbefore location hlocation other hother
      obtain ⟨rest, -, rfl⟩ := List.mem_map.1 hlocation
      obtain ⟨otherRest, -, rfl⟩ := List.mem_map.1 hother
      exact hbefore rest otherRest

/-! ### Calls -/

theorem isSome_textAt?_setText {other : Location} (text : String)
    (h : (document.textAt? other).isSome) :
    ((document.setText location text).textAt? other).isSome := by
  by_cases heq : location = other
  · subst heq
    rw [textAt?_setText_self h]
    rfl
  · rwa [textAt?_setText_of_ne heq]

section

variable {ε : Type} {answer : List Call → String → String → Except ε String}
  {calls after : List Call} {changed : Json} {result : Except ε Nat}

/-- Targets at which texts stand are visited with one call for each. -/
theorem visits_visitTargets (h : ∀ target ∈ list, (document.textAt? target.2).isSome)
    (calls : List Call) :
    Visits answer list calls document ((visitTargets (noting answer) list document).run calls).2
      ((visitTargets (noting answer) list document).run calls).1.1
      ((visitTargets (noting answer) list document).run calls).1.2 := by
  induction list generalizing document calls with
  | nil => exact .done calls document
  | cons target rest ih =>
    obtain ⟨path, location⟩ := target
    obtain ⟨hfirst, hrest⟩ := List.forall_mem_cons.1 h
    obtain ⟨text, htext⟩ := Option.isSome_iff_exists.1 hfirst
    rw [visitTargets]
    simp only [htext]
    cases hanswer : answer calls path text with
    | error e =>
      have hrun : (noting answer path text).run calls = (.error e, calls ++ [(path, text)]) := by
        rw [← hanswer]
        rfl
      simp only [StateT.run_bind, hrun]
      exact .failure rest htext hanswer
    | ok new =>
      have hrun : (noting answer path text).run calls = (.ok new, calls ++ [(path, text)]) := by
        rw [← hanswer]
        rfl
      simp only [StateT.run_bind, hrun]
      refine .call htext hanswer (ih (fun next hnext => ?_) (calls ++ [(path, text)]))
      exact isSome_textAt?_setText new (hrest next hnext)

/-- A result counts the calls, and they are for all targets. -/
theorem Visits.count (h : Visits answer list calls document after changed result) {n : Nat}
    (hn : result = .ok n) :
    n = list.length ∧ after.length = calls.length + n ∧
      after.map Prod.fst = calls.map Prod.fst ++ list.map Prod.fst := by
  induction h generalizing n with
  | done calls document =>
    cases hn
    simp
  | @call path location rest calls after document changed text new result _ _ _ ih =>
    cases result with
    | error e => cases hn
    | ok m =>
      cases hn
      obtain ⟨hlength, hcalls, hpaths⟩ := ih rfl
      refine ⟨?_, ?_, ?_⟩
      · rw [List.length_cons, hlength, Nat.add_comm]
      · rw [hcalls, List.length_append, List.length_singleton, Nat.add_assoc]
      · rw [hpaths, List.map_append, List.map_cons, List.append_assoc]
        rfl
  | failure => cases hn

/-! ### What is left alone -/

/-- A text that is blanked may be replaced before. -/
theorem blank_setText {list : List Location} (h : location ∈ list) (text : String)
    (document : Json) : blank list (document.setText location text) = blank list document := by
  induction list generalizing document with
  | nil => cases h
  | cons other rest ih =>
    rw [blank, blank, List.foldl_cons, List.foldl_cons]
    by_cases heq : location = other
    · subst heq
      rw [setText_setText]
    · rcases List.mem_cons.1 h with hsame | hrest
      · exact absurd hsame heq
      · rw [setText_comm heq]
        exact ih hrest _

/-- Nothing but the texts at the targets is changed. -/
theorem Visits.blank_eq (h : Visits answer list calls document after changed result)
    {list' : List Location} (hlist : ∀ target ∈ list, target.2 ∈ list') :
    blank list' changed = blank list' document := by
  induction h with
  | done => rfl
  | call _ _ _ ih =>
    obtain ⟨hfirst, hrest⟩ := List.forall_mem_cons.1 hlist
    rw [ih hrest, blank_setText hfirst]
  | failure => rfl

/-! ### The order of paths -/

/-- The value with the text at a target replaced by what a function makes of path and text. -/
def putAnswer (f : String → String → String) (value : Json) (target : Target) : Json :=
  match value.textAt? target.2 with
  | some text => value.setText target.2 (f target.1 text)
  | none => value

/-- A visitor that answers by path and text alone replaces one text after the other. -/
theorem Visits.eq_foldl {f : String → String → String}
    (hf : ∀ calls path text, answer calls path text = .ok (f path text))
    (h : Visits answer list calls document after changed result) :
    changed = list.foldl (putAnswer f) document := by
  induction h with
  | done => rfl
  | @call path location rest calls after document changed text new result htext hanswer _ ih =>
    have hput : putAnswer f document (path, location) = document.setText location new := by
      rw [hf] at hanswer
      cases hanswer
      simp only [putAnswer, htext]
    rw [List.foldl_cons, hput, ih]
  | failure _ _ hanswer =>
    rw [hf] at hanswer
    cases hanswer

end

/-- The texts at different locations may be replaced in any order. -/
theorem putAnswer_comm {first second : Target} (h : first.2 ≠ second.2)
    (f : String → String → String) (value : Json) :
    putAnswer f (putAnswer f value first) second =
      putAnswer f (putAnswer f value second) first := by
  unfold putAnswer
  cases hfirst : value.textAt? first.2 with
  | none =>
    cases hsecond : value.textAt? second.2 with
    | none => simp only [hfirst]
    | some text => simp only [textAt?_setText_of_ne h.symm, hfirst]
  | some old =>
    cases hsecond : value.textAt? second.2 with
    | none => simp only [textAt?_setText_of_ne h, hfirst, hsecond]
    | some text =>
      simp only [textAt?_setText_of_ne h, textAt?_setText_of_ne h.symm, hfirst, hsecond,
        setText_comm h]

/-- If no location is visited twice, the order of the targets does not matter. -/
theorem foldl_putAnswer_perm {other : List Target} (hperm : other.Perm list)
    (hnodup : (list.map Prod.snd).Nodup) (f : String → String → String) (value : Json) :
    other.foldl (putAnswer f) value = list.foldl (putAnswer f) value := by
  refine hperm.foldl_eq' (fun first hfirst second hsecond value => ?_) value
  by_cases heq : first = second
  · rw [heq]
  · refine putAnswer_comm (fun hlocation => heq ?_) f value
    exact List.inj_on_of_nodup_map hnodup (hperm.mem_iff.1 hfirst) (hperm.mem_iff.1 hsecond)
      hlocation

theorem targets_perm {paths other : List String} (h : other.Perm paths) (document : Json) :
    (targets other document).Perm (targets paths document) :=
  h.flatMap_right _

/-- The texts that a visitor is called for are those whose locations match a path step by step, path
by path and each of them once, in the order of items; the result counts the calls; nothing else is
changed. If the paths are distinct no location is visited twice, and what a visitor makes of path
and text alone does not depend on their order. -/
theorem matching_texts_visited {ε : Type} (paths : List String) (document : Json)
    (answer : List Call → String → String → Except ε String) :
    let visited := (forEachField (noting answer) paths document).run []
    Visits answer (targets paths document) [] document visited.2 visited.1.1 visited.1.2 ∧
    (∀ path location, location ∈ locations (parsePath path) document ↔
      location.map Step.segment = parsePath path ∧ (document.textAt? location).isSome) ∧
    (∀ path, (locations (parsePath path) document).Pairwise Location.Before ∧
      (locations (parsePath path) document).Nodup) ∧
    (∀ n, visited.1.2 = .ok n → n = visited.2.length ∧
      visited.2.map Prod.fst = (targets paths document).map Prod.fst) ∧
    blank ((targets paths document).map Prod.snd) visited.1.1 =
      blank ((targets paths document).map Prod.snd) document ∧
    (paths.Nodup → ((targets paths document).map Prod.snd).Nodup ∧
      ∀ f : String → String → String,
        (∀ calls path text, answer calls path text = .ok (f path text)) →
        ∀ other : List String, other.Perm paths →
          ((forEachField (noting answer) other document).run []).1.1 = visited.1.1) := by
  have htexts : ∀ paths, ∀ target ∈ targets paths document, (document.textAt? target.2).isSome := by
    rintro paths ⟨path, location⟩ htarget
    exact (mem_targets.1 htarget).2.2
  have hvisits : ∀ paths, Visits answer (targets paths document) [] document
      ((forEachField (noting answer) paths document).run []).2
      ((forEachField (noting answer) paths document).run []).1.1
      ((forEachField (noting answer) paths document).run []).1.2 := by
    intro paths
    rw [forEachField_eq_visitTargets]
    exact visits_visitTargets (htexts paths) []
  intro visited
  refine ⟨hvisits paths, fun path location => mem_locations, fun path => ?_, fun n hn => ?_, ?_,
    fun hpaths => ⟨nodup_targets hpaths, fun f hf other hperm => ?_⟩⟩
  · exact ⟨pairwise_before_locations _ _, nodup_locations _ _⟩
  · obtain ⟨-, hcalls, hnames⟩ := (hvisits paths).count hn
    exact ⟨by simpa using hcalls.symm, by simpa using hnames⟩
  · exact (hvisits paths).blank_eq fun target htarget => List.mem_map_of_mem htarget
  · rw [(hvisits other).eq_foldl hf, (hvisits paths).eq_foldl hf]
    exact foldl_putAnswer_perm (targets_perm hperm document) (nodup_targets hpaths) f document

/-- A document with a list of tags, of which one is no text. -/
def tagged : Json := .obj [("name", .str "x"), ("tags", .arr [.str "y", .int 1, .str "z"])]

/-- A visitor that puts a mark behind every text. -/
def exclaim (_ : List Call) (_ text : String) : Except Empty String := .ok (text ++ "!")

/-- The tags are visited one after the other, and marking them before or after the name comes to
the same. -/
theorem tags_marked_in_either_order :
    let visited := (forEachField (noting exclaim) ["tags[]", "name"] tagged).run []
    visited.2 = [("tags[]", "y"), ("tags[]", "z"), ("name", "x")] ∧ visited.1.2 = .ok 3 ∧
      ["tags[]", "name"].Nodup ∧ ["name", "tags[]"].Perm ["tags[]", "name"] ∧
      ((forEachField (noting exclaim) ["name", "tags[]"] tagged).run []).1.1 = visited.1.1 := by
  intro visited
  have hdistinct : ["tags[]", "name"].Nodup := by decide
  have hperm : ["name", "tags[]"].Perm ["tags[]", "name"] := by decide
  obtain ⟨-, -, -, -, -, horder⟩ := matching_texts_visited ["tags[]", "name"] tagged exclaim
  refine ⟨rfl, rfl, hdistinct, hperm, ?_⟩
  exact (horder hdistinct).2 (fun _ text => text ++ "!") (fun _ _ _ => rfl) _ hperm

end FieldVault.Document
