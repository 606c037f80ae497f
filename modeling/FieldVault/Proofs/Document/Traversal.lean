import FieldVault.Document.Fields
import FieldVault.Proofs.Document.Location
import FieldVault.Proofs.Document.Path

/-!
# Visiting fields is visiting locations

The visit of the fields of a document goes from object to object and from item to item. It comes to
the same as visiting one after the other the `targets` of the paths: the locations that the first
path leads to, then those of the next one, all in the document as it is at the start
(`forEachField_eq_visitTargets`). Different paths lead to different locations (`nodup_targets`), and
a text that is not visited is neither read nor changed (`visitTargets_setText`).
-/

set_option autoImplicit false

namespace FieldVault.Document

open Json

/-- A text to be visited: the path that leads to it and its location. -/
abbrev Target := String × Location

/-- The texts that any of the paths leads to, path by path. -/
def targets (paths : List String) (document : Json) : List Target :=
  paths.flatMap fun path =>
    (locations (parsePath path) document).map fun location => (path, location)

/-- Visit some targets one after the other, up to the first failure; the number of visits. A target
where no text stands is passed over. -/
def visitTargets {m : Type → Type} [Monad m] {ε : Type}
    (visitor : String → String → m (Except ε String)) :
    List Target → Json → m (Json × Except ε Nat)
  | [], document => pure (document, .ok 0)
  | (path, location) :: rest, document =>
    match document.textAt? location with
    | none => visitTargets visitor rest document
    | some text => do
      match ← visitor path text with
      | .error e => return (document, .error e)
      | .ok text =>
        let (document, result) ← visitTargets visitor rest (document.setText location text)
        return (document, result.map (1 + ·))

/-! ### The targets of paths -/

variable {paths : List String} {document : Json}

theorem mem_targets {path : String} {location : Location} :
    (path, location) ∈ targets paths document ↔
      path ∈ paths ∧ location.map Step.segment = parsePath path ∧
        (document.textAt? location).isSome := by
  rw [targets, List.mem_flatMap]
  constructor
  · rintro ⟨other, hpath, hmem⟩
    obtain ⟨otherLocation, hlocation, heq⟩ := List.mem_map.1 hmem
    cases heq
    exact ⟨hpath, mem_locations.1 hlocation⟩
  · rintro ⟨hpath, hlocation⟩
    exact ⟨path, hpath, List.mem_map.2 ⟨location, mem_locations.2 hlocation, rfl⟩⟩

/-- Different paths lead to different locations, and each path leads to a location once. -/
theorem nodup_targets (h : paths.Nodup) : ((targets paths document).map Prod.snd).Nodup := by
  have hlocations : ∀ path, ((locations (parsePath path) document).map fun location =>
      (path, location)).map Prod.snd = locations (parsePath path) document := by
    intro path
    rw [List.map_map]
    exact List.map_id _
  rw [targets, List.map_flatMap, List.nodup_flatMap]
  simp only [hlocations]
  refine ⟨fun path _ => nodup_locations _ _, List.Pairwise.imp ?_ h⟩
  intro path other hne location hmem hother
  -- a location tells the segments that lead to it, and these tell the path
  refine hne (parsePath_injective ?_)
  rw [← (mem_locations.1 hmem).1, ← (mem_locations.1 hother).1]

/-- The targets depend on where texts stand, and not on the texts. -/
theorem targets_congr {other : Json}
    (h : ∀ segments, locations segments other = locations segments document) :
    targets paths other = targets paths document := by
  rw [targets, targets]
  congr 1
  funext path
  rw [h]

/-! ### The visit of targets -/

section

variable {m : Type → Type} [Monad m] [LawfulMonad m] {ε : Type}
  {visitor : String → String → m (Except ε String)}

/-- No visit more leaves the number as it is. -/
theorem map_zero_add (result : Except ε Nat) : result.map (0 + ·) = result := by
  cases result with
  | error e => rfl
  | ok n => exact congrArg Except.ok (Nat.zero_add n)

/-- Visits are counted one batch after the other. -/
theorem map_add_map_add (first second : Nat) (result : Except ε Nat) :
    (result.map (second + ·)).map (first + ·) = result.map (first + second + ·) := by
  cases result with
  | error e => rfl
  | ok n => exact congrArg Except.ok (Nat.add_assoc first second n).symm

/-- The visits of a list of targets, and then of another one unless one has failed. -/
theorem visitTargets_append (first second : List Target) (document : Json) :
    visitTargets visitor (first ++ second) document = (do
      let (document, result) ← visitTargets visitor first document
      match result with
      | .error e => return (document, .error e)
      | .ok n =>
        let (document, result) ← visitTargets visitor second document
        return (document, result.map (n + ·))) := by
  induction first generalizing document with
  | nil =>
    simp only [List.nil_append, visitTargets, pure_bind, map_zero_add]
    exact (bind_pure _).symm
  | cons target rest ih =>
    obtain ⟨path, location⟩ := target
    rw [List.cons_append, visitTargets, visitTargets]
    -- both sides read the same text and ask the visitor the same question
    cases document.textAt? location with
    | none => exact ih document
    | some text =>
      simp only [bind_assoc]
      apply bind_congr
      intro answer
      cases answer with
      | error e => simp only [pure_bind]
      | ok text =>
        simp only [ih, bind_assoc, pure_bind]
        apply bind_congr
        intro visited
        obtain ⟨document, e | n⟩ := visited
        · simp only [pure_bind]
          rfl
        · simp only [bind_assoc, pure_bind, map_add_map_add]
          rfl

/-- The visits of targets inside a value that stands one step further. -/
theorem visitTargets_child {step : Step} {child : Json} (inner : List Target)
    (h : document.child? step = some child) :
    visitTargets visitor (inner.map fun target => (target.1, step :: target.2)) document = (do
      let (child, result) ← visitTargets visitor inner child
      return (modifyChild step (fun _ => child) document, result)) := by
  induction inner generalizing document child with
  | nil =>
    have hself : modifyChild step (fun _ => child) document = document := modifyChild_eq_self h rfl
    simp only [List.map_nil, visitTargets, pure_bind, hself]
  | cons target rest ih =>
    obtain ⟨path, location⟩ := target
    have htext : document.textAt? (step :: location) = child.textAt? location := by
      rw [textAt?, h, Option.bind_some]
    rw [List.map_cons, visitTargets, visitTargets, htext]
    cases child.textAt? location with
    | none => exact ih h
    | some text =>
      simp only [bind_assoc]
      apply bind_congr
      intro answer
      cases answer with
      | error e =>
        have hself : modifyChild step (fun _ => child) document = document :=
          modifyChild_eq_self h rfl
        simp only [pure_bind, hself]
      | ok text =>
        -- the rest is visited inside the child as the visitor has left it
        have hnext : (document.setText (step :: location) text).child? step =
            some (child.setText location text) := by
          rw [setText, child?_modifyChild_self, h, Option.map_some]
        simp only [ih hnext, bind_assoc, pure_bind]
        simp only [setText, modifyChild_modifyChild]

/-! ### The visit of fields -/

/-- Visiting a member by name is visiting its value, if there is one. -/
theorem visitMember_eq (visit : Json → m (Json × Except ε Nat)) (name : String)
    (members : List (String × Json)) :
    visitMember visit name members =
      match lookup? name members with
      | none => pure (members, .ok 0)
      | some value => do
        let (value, result) ← visit value
        return (modifyMember name (fun _ => value) members, result) := by
  induction members with
  | nil => rfl
  | cons first rest ih =>
    obtain ⟨other, value⟩ := first
    rw [visitMember, lookup?]
    by_cases h : name = other
    · simp only [if_pos h, if_pos h.symm, modifyMember]
    · rw [if_neg h, if_neg (Ne.symm h), ih]
      cases lookup? name rest with
      | none => simp only [pure_bind]
      | some value => simp only [bind_assoc, pure_bind, modifyMember, if_neg h]

theorem modify_length_append (f : Json → Json) (before : List Json) (item : Json)
    (rest : List Json) :
    (before ++ item :: rest).modify before.length f = before ++ f item :: rest := by
  induction before with
  | nil => rfl
  | cons first before ih => rw [List.cons_append, List.length_cons, List.modify_succ_cons, ih]; rfl

/-- Visiting the items of an array is visiting their targets, with the items before them as they
are. -/
theorem visitItems_eq (path : String) (segments : List Segment)
    (ih : ∀ value, visitSegments (visitor path) segments value =
      visitTargets visitor ((locations segments value).map fun location => (path, location)) value)
    (before items : List Json) :
    visitTargets visitor (((items.zipIdx before.length).flatMap fun entry =>
        (locations segments entry.1).map (.item entry.2 :: ·)).map fun location => (path, location))
        (.arr (before ++ items)) = (do
      let (items, result) ← visitItems (visitSegments (visitor path) segments) items
      return (.arr (before ++ items), result)) := by
  -- the items before are carried along, since each step is the place of an item among all
  induction items generalizing before with
  | nil => simp only [List.zipIdx_nil, List.flatMap_nil, List.map_nil, visitTargets, visitItems,
      pure_bind]
  | cons item rest ihItems =>
    have hchild : (Json.arr (before ++ item :: rest)).child? (.item before.length) = some item := by
      rw [child?, List.getElem?_append_right (Nat.le_refl _), Nat.sub_self, List.getElem?_cons_zero]
    have hput : ∀ visited, modifyChild (.item before.length) (fun _ => visited)
        (.arr (before ++ item :: rest)) = .arr (before ++ visited :: rest) :=
      fun visited => congrArg Json.arr (modify_length_append _ before item rest)
    have hfirst : ((locations segments item).map (Step.item before.length :: ·)).map
        (fun location => (path, location)) =
        ((locations segments item).map fun location => (path, location)).map
          fun target => (target.1, Step.item before.length :: target.2) := by
      rw [List.map_map, List.map_map]
      rfl
    rw [List.zipIdx_cons, List.flatMap_cons, List.map_append, visitTargets_append, hfirst,
      visitTargets_child _ hchild, visitItems, ih]
    simp only [bind_assoc, pure_bind, hput]
    apply bind_congr
    intro visited
    obtain ⟨visited, e | n⟩ := visited
    · simp only [pure_bind]
    · -- the item that was visited is one of those before
      have hrest := ihItems (before ++ [visited])
      simp only [List.length_append, List.length_singleton, List.append_assoc,
        List.singleton_append] at hrest
      simp only [hrest, bind_assoc, pure_bind]

/-- Visiting along a list of segments is visiting the locations that they lead to. -/
theorem visitSegments_eq_visitTargets (path : String) (segments : List Segment)
    (document : Json) :
    visitSegments (visitor path) segments document =
      visitTargets visitor
        ((locations segments document).map fun location => (path, location)) document := by
  induction segments generalizing document with
  | nil =>
    cases document with
    | str text =>
      simp only [visitSegments, locations, text?, Option.map_some, Option.toList_some,
        List.map_cons, List.map_nil, visitTargets, textAt?]
      apply bind_congr
      intro answer
      cases answer with
      | error e => rfl
      | ok text => simp only [pure_bind]; rfl
    | _ => rfl
  | cons segment segments ih =>
    cases segment with
    | member name =>
      cases document with
      | obj members =>
        rw [visitSegments, visitMember_eq]
        cases hvalue : lookup? name members with
        | none =>
          simp only [pure_bind, locations, children, hvalue]
          rfl
        | some value =>
          have hinner : (locations (.member name :: segments) (.obj members)).map
              (fun location => (path, location)) =
              ((locations segments value).map fun location => (path, location)).map
                fun target => (target.1, Step.member name :: target.2) := by
            simp only [locations, children, hvalue, Option.map_some, Option.toList_some,
              List.flatMap_singleton, List.map_map]
            rfl
          have hchild : (Json.obj members).child? (.member name) = some value := hvalue
          rw [hinner, visitTargets_child _ hchild]
          simp only [ih, bind_assoc, pure_bind, modifyChild]
      | _ => rfl
    | items =>
      cases document with
      | arr items =>
        have hitems := visitItems_eq path segments ih [] items
        rw [visitSegments, locations, children, List.flatMap_map]
        exact hitems.symm
      | _ => rfl

/-- What is done after a visit may rely on every text standing where one stood. -/
theorem visitTargets_bind_congr {β : Type} {next other : Json × Except ε Nat → m β}
    (list : List Target)
    (h : ∀ visited result, (∀ segments, locations segments visited = locations segments document) →
      next (visited, result) = other (visited, result)) :
    visitTargets visitor list document >>= next = visitTargets visitor list document >>= other := by
  induction list generalizing document next other with
  | nil =>
    simp only [visitTargets, pure_bind]
    exact h document _ fun _ => rfl
  | cons target rest ih =>
    obtain ⟨path, location⟩ := target
    rw [visitTargets]
    cases document.textAt? location with
    | none => exact ih h
    | some text =>
      simp only [bind_assoc]
      apply bind_congr
      intro answer
      cases answer with
      | error e =>
        simp only [pure_bind]
        exact h document _ fun _ => rfl
      | ok text =>
        simp only [bind_assoc, pure_bind]
        apply ih
        intro visited result hvisited
        apply h visited
        intro segments
        rw [hvisited, locations_setText]

/-- Visiting the fields of a document is visiting the targets of the paths. -/
theorem forEachField_eq_visitTargets (paths : List String) (document : Json) :
    forEachField visitor paths document =
      visitTargets visitor (targets paths document) document := by
  induction paths generalizing document with
  | nil => rfl
  | cons path rest ih =>
    have htargets : targets (path :: rest) document =
        ((locations (parsePath path) document).map fun location => (path, location)) ++
          targets rest document := List.flatMap_cons
    rw [htargets, visitTargets_append, forEachField, visitSegments_eq_visitTargets]
    -- the targets of the other paths are those of the document that the first visit leaves
    apply visitTargets_bind_congr
    intro visited result hvisited
    cases result with
    | error e => rfl
    | ok n =>
      dsimp only
      rw [ih visited, targets_congr hvisited]

/-- A text that is not visited is not touched, so it may be replaced before or after. -/
theorem visitTargets_setText {list : List Target} {location : Location}
    (h : location ∉ list.map Prod.snd) (text : String) (document : Json) :
    visitTargets visitor list (document.setText location text) = (do
      let (document, result) ← visitTargets visitor list document
      return (document.setText location text, result)) := by
  induction list generalizing document with
  | nil => simp only [visitTargets, pure_bind]
  | cons target rest ih =>
    obtain ⟨path, other⟩ := target
    rw [List.map_cons, List.mem_cons, not_or] at h
    rw [visitTargets, visitTargets, textAt?_setText_of_ne h.1]
    cases document.textAt? other with
    | none => exact ih h.2 document
    | some old =>
      simp only [bind_assoc]
      apply bind_congr
      intro answer
      -- the two replacements are at different locations
      cases answer with
      | error e => simp only [pure_bind]
      | ok new => simp only [setText_comm h.1, ih h.2, bind_assoc, pure_bind]

end

end FieldVault.Document
