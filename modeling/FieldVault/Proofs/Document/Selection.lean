import FieldVault.Proofs.Document.Visits

/-!
# What a path selects

The segments of a path start with a member, and `items` stands only behind a member
(`wellFormed_parsePath`). Joined by points, the names with their `[]` are the path again
(`intercalate_nameTexts_parsePath`). A list of segments selects the texts that a visit along it
replaces (`Selects`), which are those whose steps match it (`selects_iff`); so no text of a document
is selected by two different lists (`paths_well_formed_and_apart`).
-/

set_option autoImplicit false

namespace FieldVault.Document

open Json

/-! ### The shape of segments -/

/-- The segments start with a member, and `items` stands only behind a member. -/
structure WellFormed (segments : List Segment) : Prop where
  starts : ∃ name rest, segments = .member name :: rest
  itemsBehind : ∀ i, segments[i + 1]? = some .items → ∃ name, segments[i]? = some (.member name)

theorem splitAtPoints_ne_nil (cs : List Char) : splitAtPoints cs ≠ [] := by
  intro h
  have hjoin := flatMap_splitAtPoints cs
  rw [h] at hjoin
  cases hjoin

theorem exists_parsePath_eq_cons (path : String) :
    ∃ name rest, parsePath path = .member name :: rest := by
  obtain ⟨part, parts, hparts⟩ := List.exists_cons_of_ne_nil (splitAtPoints_ne_nil path.toList)
  rw [parsePath, hparts, List.flatMap_cons]
  obtain h | ⟨name, -, h⟩ := segmentsOf_cases part
  · rw [h]
    exact ⟨_, _, rfl⟩
  · rw [h]
    exact ⟨_, _, rfl⟩

theorem wellFormed_parsePath (path : String) : WellFormed (parsePath path) := by
  refine ⟨exists_parsePath_eq_cons path, fun i hitems => ?_⟩
  obtain ⟨hlt, hnext⟩ := List.getElem?_eq_some_iff.1 hitems
  have hfound : (parsePath path)[i]? = some (parsePath path)[i] := List.getElem?_eq_getElem _
  cases hsegment : (parsePath path)[i] with
  | member name => exact ⟨name, hfound.trans (congrArg some hsegment)⟩
  | items =>
    -- two `items` in a row would ask for the items of items
    have hdrop : (parsePath path).drop i = .items :: .items :: (parsePath path).drop (i + 2) := by
      rw [List.drop_eq_getElem_cons (by omega), List.drop_eq_getElem_cons hlt, hsegment, hnext]
    refine absurd ⟨(parsePath path).take i, (parsePath path).drop (i + 2), ?_⟩
      (not_nested_parsePath path)
    calc (parsePath path).take i ++ [.items, .items] ++ (parsePath path).drop (i + 2) =
          (parsePath path).take i ++ (parsePath path).drop i := by rw [hdrop]; simp
      _ = parsePath path := List.take_append_drop i _

/-! ### Joining names -/

/-- The names among some segments in order, each with `[]` behind it where `items` follows it. -/
def nameTexts : List Segment → List String
  | [] => []
  | .member name :: .items :: rest => (name ++ "[]") :: nameTexts rest
  | .member name :: rest => name :: nameTexts rest
  | .items :: rest => nameTexts rest

theorem nameTexts_member {rest : List Segment} (h : ∀ segments, rest ≠ .items :: segments)
    (name : String) : nameTexts (.member name :: rest) = name :: nameTexts rest := by
  cases rest with
  | nil => rfl
  | cons segment rest =>
    cases segment with
    | member other => rfl
    | items => exact absurd rfl (h rest)

/-- The names of some parts with their `[]` are the parts. -/
theorem nameTexts_flatMap_segmentsOf (parts : List (List Char)) :
    nameTexts (parts.flatMap segmentsOf) = parts.map String.ofList := by
  induction parts with
  | nil => rfl
  | cons part parts ih =>
    rw [List.flatMap_cons, List.map_cons, ← ih]
    obtain h | ⟨name, hpart, h⟩ := segmentsOf_cases part
    · rw [h]
      exact nameTexts_member (flatMap_segmentsOf_ne_items parts) _
    · have htext : String.ofList name ++ "[]" = String.ofList part := by
        rw [hpart, String.ofList_append]
      rw [h, ← htext]
      rfl

/-- The parts of a text joined by points are the text. -/
theorem intercalate_splitAtPoints (cs : List Char) : ['.'].intercalate (splitAtPoints cs) = cs := by
  -- with a point before every part there is one point more, the first
  have hjoin : ∀ parts : List (List Char), parts ≠ [] →
      parts.flatMap ('.' :: ·) = '.' :: ['.'].intercalate parts := by
    intro parts hparts
    induction parts with
    | nil => exact absurd rfl hparts
    | cons part parts ih =>
      cases parts with
      | nil => simp
      | cons next parts =>
        rw [List.flatMap_cons, ih (List.cons_ne_nil _ _)]
        simp
  have htext := flatMap_splitAtPoints cs
  rw [hjoin _ (splitAtPoints_ne_nil cs)] at htext
  exact (List.cons.inj htext).2

/-- The names of a path with their `[]`, joined by points, are the path. -/
theorem intercalate_nameTexts_parsePath (path : String) :
    ".".intercalate (nameTexts (parsePath path)) = path := by
  have hparts : (splitAtPoints path.toList).map (String.toList ∘ String.ofList) =
      splitAtPoints path.toList := by
    simp [Function.comp_def]
  rw [parsePath, nameTexts_flatMap_segmentsOf, ← String.toList_inj, String.toList_intercalate,
    List.map_map, hparts]
  exact intercalate_splitAtPoints path.toList

/-! ### Selecting -/

/-- The value that is left when a visitor answers `new` for every text that some segments lead
to. -/
def replaceAlong (new : String) (segments : List Segment) (value : Json) : Json :=
  (visitSegments (m := Id) (ε := Empty) (fun _ => pure (.ok new)) segments value).run.1

/-- Some segments select the text at a location if it is replaced along them by any text. -/
def Selects (segments : List Segment) (value : Json) (location : Location) : Prop :=
  (value.textAt? location).isSome ∧
    ∀ new, (replaceAlong new segments value).textAt? location = some new

variable {location : Location} {value : Json}

/-- After a visit the new text stands at the targets, and at other locations what stood there. -/
theorem textAt?_visitTargets {list : List Target} (new : String)
    (h : (value.textAt? location).isSome) :
    (visitTargets (m := Id) (ε := Empty) (fun _ _ => pure (.ok new)) list value).run.1.textAt?
        location =
      if location ∈ list.map Prod.snd then some new else value.textAt? location := by
  induction list generalizing value with
  | nil => rfl
  | cons target rest ih =>
    obtain ⟨path, other⟩ := target
    rw [visitTargets, List.map_cons]
    cases hother : value.textAt? other with
    | none =>
      have hne : location ≠ other := by
        rintro rfl
        rw [hother] at h
        cases h
      simp only [ih h, List.mem_cons, hne, false_or]
    | some old =>
      refine (ih (isSome_textAt?_setText new h)).trans ?_
      by_cases heq : other = location
      · subst heq
        simp [textAt?_setText_self h]
      · rw [textAt?_setText_of_ne heq]
        simp only [List.mem_cons, Ne.symm heq, false_or]

/-- A visit along some segments replaces the texts that they lead to. -/
theorem textAt?_replaceAlong {segments : List Segment} (new : String)
    (h : (value.textAt? location).isSome) :
    (replaceAlong new segments value).textAt? location =
      if location ∈ locations segments value then some new else value.textAt? location := by
  have htargets : ((locations segments value).map fun location => ("", location)).map Prod.snd =
      locations segments value := by
    simp [Function.comp_def]
  let visitor : String → String → Id (Except Empty String) := fun _ _ => pure (.ok new)
  have hvisit : visitSegments (visitor "") segments value = _ :=
    visitSegments_eq_visitTargets "" segments value
  rw [replaceAlong, hvisit, textAt?_visitTargets new h, htargets]

/-- Some segments select the texts whose steps match them. -/
theorem selects_iff {segments : List Segment} :
    Selects segments value location ↔
      location.map Step.segment = segments ∧ (value.textAt? location).isSome := by
  rw [← mem_locations, Selects]
  constructor
  · rintro ⟨htext, hreplaced⟩
    by_contra hout
    obtain ⟨old, hold⟩ := Option.isSome_iff_exists.1 htext
    have hkept := hreplaced (old ++ "!")
    rw [textAt?_replaceAlong _ htext, if_neg hout, hold, Option.some.injEq] at hkept
    simpa using congrArg String.length hkept
  · intro hmem
    have htext := (mem_locations.1 hmem).2
    exact ⟨htext, fun new => (textAt?_replaceAlong new htext).trans (if_pos hmem)⟩

/-- The segments of a path start with a member and have `items` only behind a member, and their
names with their `[]`, joined by points, are the path, so different paths have different segments.
Two different lists of segments never select the text at one location of a value. -/
theorem paths_well_formed_and_apart (path other : String) :
    WellFormed (parsePath path) ∧
    ".".intercalate (nameTexts (parsePath path)) = path ∧
    (path ≠ other → parsePath path ≠ parsePath other) ∧
    (parsePath path ≠ parsePath other → ∀ (value : Json) (location : Location),
      Selects (parsePath path) value location → ¬ Selects (parsePath other) value location) := by
  refine ⟨wellFormed_parsePath path, intercalate_nameTexts_parsePath path, ?_, ?_⟩
  · intro hne h
    apply hne
    rw [← intercalate_nameTexts_parsePath path, h, intercalate_nameTexts_parsePath]
  · intro hne value location hselects hother
    exact hne ((selects_iff.1 hselects).1.symm.trans (selects_iff.1 hother).1)

/-- The items of `tags` and those of `tags[]` are selected apart. -/
theorem tags_selected_apart :
    let document : Json := .obj [("tags", .arr [.str "x"]), ("tags[]", .arr [.str "y"])]
    "tags[]" ≠ "tags[][]" ∧ parsePath "tags[]" ≠ parsePath "tags[][]" ∧
      Selects (parsePath "tags[]") document [.member "tags", .item 0] ∧
      ¬ Selects (parsePath "tags[][]") document [.member "tags", .item 0] := by
  intro document
  obtain ⟨-, -, hlists, hselections⟩ := paths_well_formed_and_apart "tags[]" "tags[][]"
  have hpaths : "tags[]" ≠ "tags[][]" := by decide
  have hselects : Selects (parsePath "tags[]") document [.member "tags", .item 0] :=
    selects_iff.2 ⟨by decide, by decide⟩
  exact ⟨hpaths, hlists hpaths, hselects, hselections (hlists hpaths) document _ hselects⟩

end FieldVault.Document
