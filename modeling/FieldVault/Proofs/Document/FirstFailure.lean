import FieldVault.Proofs.Document.Visits

/-!
# A visit ends at the first failure

A visitor may fail. The visit then ends with this failure: nothing more is visited, and what was
visited before keeps its new texts. To say so for every visitor, its visit is compared with the one
of a visitor that answers in the same way in its first `k` calls and from then on leaves every text
alone, and so never ends early (`visit_ends_at_first_failure`). The calls up to the first failure do
not depend on what is answered there, or would be answered later.
-/

set_option autoImplicit false

namespace FieldVault.Document

open Json

section

variable {ε : Type}

/-- A visitor that answers like another one in its first `k` calls and then leaves every text
alone. -/
def idleFrom (k : Nat) (answer : List Call → String → String → Except ε String)
    (calls : List Call) (path text : String) : Except ε String :=
  if calls.length < k then answer calls path text else .ok text

/-- Of some calls number `k` is the first one at which a visitor fails, and it fails with `e`. -/
structure FailsFirst (answer : List Call → String → String → Except ε String) (calls : List Call)
    (k : Nat) (e : ε) : Prop where
  before : ∀ j < k, ∃ path text new, calls[j]? = some (path, text) ∧
    answer (calls.take j) path text = .ok new
  fails : ∃ path text, calls[k]? = some (path, text) ∧ answer (calls.take k) path text = .error e

variable {answer other : List Call → String → String → Except ε String} {list : List Target}
  {calls after : List Call} {document changed : Json} {result : Except ε Nat}

/-! ### Runs of visits -/

namespace Visits

/-- Calls are added behind those before. -/
theorem isPrefix (h : Visits answer list calls document after changed result) :
    calls <+: after := by
  induction h with
  | done calls document => exact List.prefix_rfl
  | call _ _ _ ih => exact (List.prefix_append _ _).trans ih
  | failure rest _ _ => exact List.prefix_append _ _

/-- A visitor makes one visit only. -/
theorem unique {others : List Call} {altered : Json} {outcome : Except ε Nat}
    (h : Visits answer list calls document after changed result)
    (hother : Visits answer list calls document others altered outcome) :
    others = after ∧ altered = changed ∧ outcome = result := by
  induction h generalizing others altered outcome with
  | done calls document =>
    cases hother
    exact ⟨rfl, rfl, rfl⟩
  | call htext hanswer _ ih =>
    cases hother with
    | call htext' hanswer' hrest' =>
      cases htext.symm.trans htext'
      cases hanswer.symm.trans hanswer'
      obtain ⟨rfl, rfl, rfl⟩ := ih hrest'
      exact ⟨rfl, rfl, rfl⟩
    | failure _ htext' hanswer' =>
      cases htext.symm.trans htext'
      cases hanswer.symm.trans hanswer'
  | failure rest htext hanswer =>
    cases hother with
    | call htext' hanswer' _ =>
      cases htext.symm.trans htext'
      cases hanswer.symm.trans hanswer'
    | failure _ htext' hanswer' =>
      cases htext.symm.trans htext'
      cases hanswer.symm.trans hanswer'
      exact ⟨rfl, rfl, rfl⟩

/-- A visit that has come to its end goes on with more targets. -/
theorem append {more : List Target} {middle : List Call} {halfway : Json} {n : Nat}
    (first : Visits answer list calls document middle halfway (.ok n))
    (second : Visits answer more middle halfway after changed result) :
    Visits answer (list ++ more) calls document after changed (result.map (n + ·)) := by
  generalize hresult : (Except.ok n : Except ε Nat) = outcome at first
  induction first generalizing n with
  | done calls document =>
    cases hresult
    rwa [map_zero_add]
  | @call _ _ _ _ _ _ _ _ _ rest htext hanswer _ ih =>
    cases rest with
    | error e => cases hresult
    | ok m =>
      cases hresult
      rw [← map_add_map_add]
      exact .call htext hanswer (ih second rfl)
  | failure => cases hresult

/-- A visit can be cut before any of its calls. -/
theorem split (h : Visits answer list calls document after changed result) {k : Nat}
    (hk : calls.length ≤ k) (hlt : k < after.length) :
    ∃ front path location rest text middle outcome, list = front ++ (path, location) :: rest ∧
      Visits answer front calls document (after.take k) middle (.ok front.length) ∧
      middle.textAt? location = some text ∧ after[k]? = some (path, text) ∧
      Visits answer ((path, location) :: rest) (after.take k) middle after changed outcome ∧
      result = outcome.map (front.length + ·) := by
  induction h with
  | done calls document => exact absurd hlt (Nat.not_lt_of_le hk)
  | @call path location rest calls after document changed text new result htext hanswer hrest ih =>
    obtain ⟨more, hmore⟩ := hrest.isPrefix
    rcases Nat.eq_or_lt_of_le hk with rfl | hlater
    · -- the cut is before the first call
      have htake : after.take calls.length = calls := by
        rw [← hmore, List.append_assoc, List.take_left]
      have hcall : after[calls.length]? = some (path, text) := by
        rw [← hmore, List.append_assoc, List.getElem?_append_right (Nat.le_refl _), Nat.sub_self]
        rfl
      refine ⟨[], path, location, rest, text, document, result.map (1 + ·), rfl, ?_, htext, hcall,
        ?_, (map_zero_add _).symm⟩
      · rw [htake]
        exact .done calls document
      · rw [htake]
        exact .call htext hanswer hrest
    · have hle : (calls ++ [(path, text)]).length ≤ k := by
        rw [List.length_append, List.length_singleton]
        exact hlater
      obtain ⟨front, next, there, rest', old, middle, outcome, rfl, hfront, hold, hcall, hback,
        rfl⟩ := ih hle hlt
      have hfirst := Visits.call htext hanswer hfront
      refine ⟨(path, location) :: front, next, there, rest', old, middle, outcome, rfl, ?_, hold,
        hcall, hback, ?_⟩
      · rwa [List.length_cons, Nat.add_comm]
      · rw [map_add_map_add, List.length_cons, Nat.add_comm]
  | @failure path location rest calls document text e htext hanswer =>
    have hlast : k = calls.length := by
      rw [List.length_append, List.length_singleton] at hlt
      exact Nat.le_antisymm (Nat.le_of_lt_succ hlt) hk
    subst hlast
    have htake : (calls ++ [(path, text)]).take calls.length = calls := List.take_left
    have hcall : (calls ++ [(path, text)])[calls.length]? = some (path, text) :=
      List.getElem?_concat_length
    refine ⟨[], path, location, rest, text, document, .error e, rfl, ?_, htext, hcall, ?_, rfl⟩
    · rw [htake]
      exact .done calls document
    · rw [htake]
      exact .failure rest htext hanswer

/-- The calls of a visit are answered by what came before them. -/
theorem congr (h : Visits answer list calls document after changed result)
    (hsame : ∀ calls path text, calls.length < after.length →
      other calls path text = answer calls path text) :
    Visits other list calls document after changed result := by
  induction h with
  | done calls document => exact .done calls document
  | @call path location rest calls after document changed text new result htext hanswer hrest ih =>
    have hlt : calls.length < after.length := by
      have hle := hrest.isPrefix.length_le
      rwa [List.length_append, List.length_singleton] at hle
    exact .call htext ((hsame calls path text hlt).trans hanswer) (ih hsame)
  | @failure path location rest calls document text e htext hanswer =>
    have hlt : calls.length < (calls ++ [(path, text)]).length := by
      rw [List.length_append, List.length_singleton]
      exact Nat.lt_succ_self _
    exact .failure rest htext ((hsame calls path text hlt).trans hanswer)

/-- A visit that leaves texts alone comes to its end with the document as it is. -/
theorem idle {k : Nat} (h : Visits (idleFrom k answer) list calls document after changed result)
    (hk : k ≤ calls.length) : changed = document ∧ result = .ok list.length := by
  have hidle : ∀ {calls : List Call} {path text : String}, k ≤ calls.length →
      idleFrom k answer calls path text = .ok text := fun hle => if_neg (Nat.not_lt_of_le hle)
  induction h with
  | done calls document => exact ⟨rfl, rfl⟩
  | @call path location rest calls after document changed text new result htext hanswer _ ih =>
    rw [hidle hk] at hanswer
    cases hanswer
    have hlater : k ≤ (calls ++ [(path, text)]).length := by
      rw [List.length_append]
      exact Nat.le_add_right_of_le hk
    obtain ⟨hchanged, hresult⟩ := ih hlater
    refine ⟨?_, ?_⟩
    · rw [hchanged, setText_eq_self htext]
    · rw [hresult, List.length_cons, Nat.add_comm]
      rfl
  | failure _ _ hanswer =>
    rw [hidle hk] at hanswer
    cases hanswer

/-- What is left of a visit when it has dealt with its first targets. -/
theorem of_append {more : List Target} {middle : List Call} {halfway : Json} {n : Nat}
    (first : Visits answer list calls document middle halfway (.ok n))
    (h : Visits answer (list ++ more) calls document after changed result) :
    ∃ outcome, Visits answer more middle halfway after changed outcome := by
  generalize hresult : (Except.ok n : Except ε Nat) = outcome at first
  induction first generalizing n result with
  | done calls document => exact ⟨result, h⟩
  | @call _ _ _ _ _ _ _ _ _ counted htext hanswer _ ih =>
    cases counted with
    | error e => cases hresult
    | ok m =>
      cases h with
      | call htext' hanswer' hrest =>
        cases htext.symm.trans htext'
        cases hanswer.symm.trans hanswer'
        exact ih hrest rfl
      | failure _ htext' hanswer' =>
        cases htext.symm.trans htext'
        cases hanswer.symm.trans hanswer'
  | failure => cases hresult

/-- The first target is visited with the text that stands there. -/
theorem isPrefix_of_textAt? {path text : String} {location : Location} {rest : List Target}
    (h : Visits answer ((path, location) :: rest) calls document after changed result)
    (htext : document.textAt? location = some text) : calls ++ [(path, text)] <+: after := by
  cases h with
  | call htext' _ hrest =>
    cases htext.symm.trans htext'
    exact hrest.isPrefix
  | failure _ htext' _ =>
    cases htext.symm.trans htext'
    exact List.prefix_rfl

/-- Two visitors that answer alike in their first `k` calls are called alike up to number `k`. -/
theorem isPrefix_of_agree {others : List Call} {altered : Json} {outcome : Except ε Nat} {k : Nat}
    (h : Visits answer list [] document after changed result)
    (hother : Visits other list [] document others altered outcome) (hlt : k < after.length)
    (hsame : ∀ calls path text, calls.length < k →
      other calls path text = answer calls path text) :
    after.take (k + 1) <+: others := by
  obtain ⟨front, path, location, rest, text, middle, _, rfl, hfront, htext, hcall, -, -⟩ :=
    h.split (Nat.zero_le k) hlt
  have hfirst : Visits other front [] document (after.take k) middle (.ok front.length) := by
    refine hfront.congr fun calls path text hcalls => hsame calls path text ?_
    exact Nat.lt_of_lt_of_le hcalls (List.length_take_le k after)
  obtain ⟨_, hrest⟩ := hfirst.of_append hother
  rw [List.take_add_one, hcall]
  exact hrest.isPrefix_of_textAt? htext

/-- The calls of a visit are answered, and only the last one may have failed. -/
theorem exists_answer (h : Visits answer list calls document after changed result) {k : Nat}
    (hk : calls.length ≤ k) (hlt : k + 1 < after.length) :
    ∃ path text new, after[k]? = some (path, text) ∧
      answer (after.take k) path text = .ok new := by
  obtain ⟨front, path, location, rest, text, middle, outcome, -, -, htext, hcall, hrest, -⟩ :=
    h.split hk (Nat.lt_of_succ_lt hlt)
  generalize hbefore : after.take k = before at hrest
  have hlength : before.length = k := by
    rw [← hbefore, List.length_take, Nat.min_eq_left (Nat.le_of_succ_le (Nat.le_of_lt hlt))]
  cases hrest with
  | call htext' hanswer _ =>
    cases htext.symm.trans htext'
    exact ⟨path, text, _, hcall, hanswer⟩
  | failure =>
    rw [List.length_append, List.length_singleton, hlength] at hlt
    exact absurd hlt (Nat.lt_irrefl _)

/-- If a visit fails, its last call has failed. -/
theorem exists_failure {e : ε} (h : Visits answer list calls document after changed (.error e)) :
    ∃ before path text, after = before ++ [(path, text)] ∧ answer before path text = .error e := by
  generalize hresult : (Except.error e : Except ε Nat) = result at h
  induction h with
  | done calls document => cases hresult
  | @call _ _ _ _ _ _ _ _ _ counted _ _ _ ih =>
    cases counted with
    | error fault =>
      cases hresult
      exact ih rfl
    | ok n => cases hresult
  | @failure path location rest calls document text fault htext hanswer =>
    cases hresult
    exact ⟨calls, path, text, rfl, hanswer⟩

/-! ### The first failure -/

variable {visited : List Call} {k : Nat} {e : ε}

/-- If the first failure is at call `k`, the visit ends there, with the document that a visitor
leaves who is idle from then on. -/
theorem of_failsFirst (h : Visits (idleFrom k answer) list [] document calls changed result)
    (hfails : FailsFirst answer calls k e) :
    Visits answer list [] document (calls.take (k + 1)) changed (.error e) ∧
      result = .ok list.length := by
  obtain ⟨path, text, hcall, hanswer⟩ := hfails.fails
  have hlt : k < calls.length := (List.getElem?_eq_some_iff.1 hcall).1
  obtain ⟨front, path', location, rest, text', middle, outcome, rfl, hfront, htext, hcall', hrest,
    hresult⟩ := h.split (Nat.zero_le k) hlt
  cases hcall.symm.trans hcall'
  have hk : k ≤ (calls.take k).length := by
    rw [List.length_take]
    exact Nat.le_min.2 ⟨Nat.le_refl k, Nat.le_of_lt hlt⟩
  -- what is left is visited without a change
  obtain ⟨rfl, rfl⟩ := hrest.idle hk
  constructor
  · have hfirst : Visits answer front [] document (calls.take k) changed (.ok front.length) := by
      refine hfront.congr fun before path text hbefore => (if_pos ?_).symm
      exact Nat.lt_of_lt_of_le hbefore (List.length_take_le k calls)
    have hlast := hfirst.append (.failure rest htext hanswer)
    rw [List.take_add_one, hcall]
    exact hlast
  · obtain ⟨hcount, -, -⟩ := h.count hresult
    rw [← hcount]
    exact hresult

/-- If a visit fails, there is a first failure. -/
theorem failsFirst_of_error (h : Visits answer list [] document visited changed (.error e)) :
    ∃ k, ∀ {calls altered outcome},
      Visits (idleFrom k answer) list [] document calls altered outcome →
      FailsFirst answer calls k e := by
  obtain ⟨before, path, text, rfl, hanswer⟩ := h.exists_failure
  refine ⟨before.length, fun {calls altered outcome} hidle => ?_⟩
  have hlength : (before ++ [(path, text)]).length = before.length + 1 := by
    rw [List.length_append, List.length_singleton]
  have hprefix : before ++ [(path, text)] <+: calls := by
    have hagree := h.isPrefix_of_agree hidle (hlength ▸ Nat.lt_succ_self _)
      fun calls path text hcalls => if_pos hcalls
    rwa [← hlength, List.take_length] at hagree
  obtain ⟨more, rfl⟩ := hprefix
  constructor
  · intro j hj
    obtain ⟨path', text', new, hcall, hok⟩ := h.exists_answer (Nat.zero_le j) (by omega)
    refine ⟨path', text', new, ?_, ?_⟩
    · rw [List.getElem?_append_left (by omega), hcall]
    · rw [List.take_append_of_le_length (by omega), hok]
  · refine ⟨path, text, ?_, ?_⟩
    · rw [List.append_assoc, List.getElem?_append_right (Nat.le_refl _), Nat.sub_self]
      rfl
    · rw [List.append_assoc, List.take_left, hanswer]

end Visits

end

/-- A visit fails exactly if one of its calls fails, with the error of the first one that does. It
then has made the calls up to this one, and these are also the first calls of every visitor that
answers alike before; and it leaves the document that is left, after a visit of all targets, by a
visitor that does nothing from this call on. -/
theorem visit_ends_at_first_failure {ε : Type} (paths : List String) (document : Json)
    (answer : List Call → String → String → Except ε String) :
    let visited := (forEachField (noting answer) paths document).run []
    let idle := fun k => (forEachField (noting (idleFrom k answer)) paths document).run []
    (∀ e, visited.1.2 = .error e ↔ ∃ k, FailsFirst answer (idle k).2 k e) ∧
    ∀ k e, FailsFirst answer (idle k).2 k e →
      visited.1.2 = .error e ∧
      visited.2.length = k + 1 ∧ visited.2 = (idle k).2.take (k + 1) ∧
      (∀ other : List Call → String → String → Except ε String,
        (∀ calls path text, calls.length < k →
          other calls path text = answer calls path text) →
        ((forEachField (noting other) paths document).run []).2.take (k + 1) = visited.2) ∧
      visited.1.1 = (idle k).1.1 ∧ (idle k).1.2 = .ok (targets paths document).length := by
  have hvisits : ∀ answer : List Call → String → String → Except ε String,
      Visits answer (targets paths document) [] document
        ((forEachField (noting answer) paths document).run []).2
        ((forEachField (noting answer) paths document).run []).1.1
        ((forEachField (noting answer) paths document).run []).1.2 := by
    intro answer
    rw [forEachField_eq_visitTargets]
    exact visits_visitTargets (fun target htarget => (mem_targets.1 htarget).2.2) []
  intro visited idle
  have hfirst : ∀ k e, FailsFirst answer (idle k).2 k e →
      Visits answer (targets paths document) [] document ((idle k).2.take (k + 1)) (idle k).1.1
        (.error e) ∧ (idle k).1.2 = .ok (targets paths document).length :=
    fun k e hfails => (hvisits (idleFrom k answer)).of_failsFirst hfails
  constructor
  · intro e
    constructor
    · intro herror
      have hvisited := hvisits answer
      rw [herror] at hvisited
      obtain ⟨k, hfails⟩ := hvisited.failsFirst_of_error
      exact ⟨k, hfails (hvisits _)⟩
    · rintro ⟨k, hfails⟩
      exact ((hfirst k e hfails).1.unique (hvisits answer)).2.2
  · intro k e hfails
    obtain ⟨hvisit, hend⟩ := hfirst k e hfails
    obtain ⟨hcalls, hdocument, hresult⟩ := hvisit.unique (hvisits answer)
    obtain ⟨path, text, hcall, -⟩ := hfails.fails
    have hlt : k < (idle k).2.length := (List.getElem?_eq_some_iff.1 hcall).1
    have hlength : visited.2.length = k + 1 := by
      rw [hcalls, List.length_take, Nat.min_eq_left hlt]
    refine ⟨hresult, hlength, hcalls, fun other hsame => ?_, hdocument, hend⟩
    have hagree := (hvisits answer).isPrefix_of_agree (hvisits other)
      (hlength ▸ Nat.lt_succ_self k) hsame
    have hwhole : visited.2.take (k + 1) = visited.2 :=
      List.take_of_length_le (Nat.le_of_eq hlength)
    rw [hwhole] at hagree
    rw [← hlength]
    exact (List.prefix_iff_eq_take.1 hagree).symm

/-- A visitor that marks the first text and fails on the second one. -/
def giveUp (calls : List Call) (_ text : String) : Except String String :=
  if calls.length = 1 then .error "boom" else .ok (text ++ "!")

/-- The second tag is not marked, and the name is not visited. -/
theorem second_tag_fails :
    let visited := (forEachField (noting giveUp) ["tags[]", "name"] tagged).run []
    let idle := (forEachField (noting (idleFrom 1 giveUp)) ["tags[]", "name"] tagged).run []
    FailsFirst giveUp idle.2 1 "boom" ∧ idle.2 = [("tags[]", "y"), ("tags[]", "z"), ("name", "x")] ∧
      visited.1.2 = .error "boom" ∧ visited.2 = [("tags[]", "y"), ("tags[]", "z")] ∧
      visited.1.1 = idle.1.1 := by
  intro visited idle
  have hfails : FailsFirst giveUp idle.2 1 "boom" := by
    refine ⟨fun j hj => ?_, "tags[]", "z", rfl, rfl⟩
    rw [Nat.lt_one_iff.1 hj]
    exact ⟨"tags[]", "y", "y!", rfl, rfl⟩
  obtain ⟨-, hends⟩ := visit_ends_at_first_failure ["tags[]", "name"] tagged giveUp
  obtain ⟨herror, -, hcalls, -, hdocument, -⟩ := hends 1 "boom" hfails
  exact ⟨hfails, rfl, herror, hcalls, hdocument⟩

end FieldVault.Document
