import FieldVault.Document.Path

/-!
# Paths as texts and as segments

The segments of a path say everything its text says: writing them one after the other gives the
text back (`renderPath_parsePath`), so different texts are different lists of segments
(`parsePath_injective`). The other way round, a written list of segments is read back
(`parsePath_renderPath`) unless it has names that are no proper names or asks for the items of
items: no path does that (`not_nested_parsePath`).
-/

set_option autoImplicit false

namespace FieldVault.Document

/-! ### Writing segments -/

/-- What a segment adds to the text of a path: a point with a name, or `[]`. -/
def Segment.chars : Segment → List Char
  | .member name => '.' :: name.toList
  | .items => ['[', ']']

/-- The text of a list of segments, which has no point before the first name. -/
def renderPath (segments : List Segment) : String :=
  String.ofList (segments.flatMap Segment.chars).tail

/-- The parts of a text with a point before each are the text with a point before it. -/
theorem flatMap_splitAtPoints (cs : List Char) :
    (splitAtPoints cs).flatMap ('.' :: ·) = '.' :: cs := by
  induction cs with
  | nil => rfl
  | cons c cs ih =>
    rw [splitAtPoints]
    split
    · rename_i hpoint
      rw [List.flatMap_cons, ih, hpoint]
      rfl
    · -- the first part of the rest gets one more character
      cases hparts : splitAtPoints cs with
      | nil =>
        rw [hparts] at ih
        cases ih
      | cons part parts =>
        rw [hparts, List.flatMap_cons] at ih
        have htail : part ++ parts.flatMap ('.' :: ·) = cs := List.cons.inj ih |>.2
        dsimp only
        rw [List.flatMap_cons, List.cons_append, List.cons_append, htail]

/-- A part ends in `[]` exactly if it is a name with `[]` behind it. -/
theorem arrayName?_eq_some_iff {part name : List Char} :
    arrayName? part = some name ↔ part = name ++ ['[', ']'] := by
  constructor
  · intro h
    unfold arrayName? at h
    split at h
    · rename_i rest hreverse
      have hpart : part = (']' :: '[' :: rest).reverse := by
        rw [← hreverse, List.reverse_reverse]
      have hname : rest.reverse = name := Option.some.inj h
      rw [hpart, List.reverse_cons, List.reverse_cons, hname, List.append_assoc]
      rfl
    · cases h
  · intro h
    rw [h, arrayName?, List.reverse_append]
    simp only [List.reverse_cons, List.reverse_nil, List.nil_append, List.cons_append,
      List.reverse_reverse]

/-- The segments of a part write the part, with a point before it. -/
theorem flatMap_segmentsOf (part : List Char) :
    (segmentsOf part).flatMap Segment.chars = '.' :: part := by
  unfold segmentsOf
  cases h : arrayName? part with
  | none => simp [Segment.chars]
  | some name =>
    rw [arrayName?_eq_some_iff.1 h]
    simp [Segment.chars]

/-- The segments of a path write its text. -/
theorem renderPath_parsePath (path : String) : renderPath (parsePath path) = path := by
  have hchars : (parsePath path).flatMap Segment.chars = '.' :: path.toList := by
    rw [parsePath, List.flatMap_assoc, ← flatMap_splitAtPoints]
    congr 1
    funext part
    exact flatMap_segmentsOf part
  rw [renderPath, hchars, List.tail_cons, String.ofList_toList]

/-- Different paths have different segments. -/
theorem parsePath_injective : Function.Injective parsePath := by
  intro path other h
  rw [← renderPath_parsePath path, h, renderPath_parsePath]

/-! ### Reading what was written -/

/-- A name that stands for itself in the text of a path. -/
structure ProperName (name : String) : Prop where
  nonempty : name ≠ ""
  noPoint : '.' ∉ name.toList
  noBrackets : ¬ ['[', ']'] <:+ name.toList

/-- Whether a list of segments asks for the items of the items of an array. -/
def Nested (segments : List Segment) : Prop := [Segment.items, .items] <:+: segments

instance (segments : List Segment) : Decidable (Nested segments) :=
  inferInstanceAs (Decidable ([Segment.items, .items] <:+: segments))

theorem splitAtPoints_of_notMem {part : List Char} (h : '.' ∉ part) :
    splitAtPoints part = [part] := by
  induction part with
  | nil => rfl
  | cons c part ih =>
    rw [List.mem_cons, not_or] at h
    rw [splitAtPoints, if_neg (Ne.symm h.1), ih h.2]

theorem splitAtPoints_append {part : List Char} (h : '.' ∉ part) (rest : List Char) :
    splitAtPoints (part ++ '.' :: rest) = part :: splitAtPoints rest := by
  induction part with
  | nil => rw [List.nil_append, splitAtPoints, if_pos rfl]
  | cons c part ih =>
    rw [List.mem_cons, not_or] at h
    rw [List.cons_append, splitAtPoints, if_neg (Ne.symm h.1), ih h.2]

theorem segmentsOf_name {name : String} (h : ¬ ['[', ']'] <:+ name.toList) :
    segmentsOf name.toList = [.member name] := by
  have hnone : arrayName? name.toList = none := by
    refine Option.eq_none_iff_forall_ne_some.2 fun other hother => h ?_
    exact ⟨other, (arrayName?_eq_some_iff.1 hother).symm⟩
  rw [segmentsOf, hnone, String.ofList_toList]

theorem segmentsOf_name_items (name : String) :
    segmentsOf (name.toList ++ ['[', ']']) = [.member name, .items] := by
  have hsome := arrayName?_eq_some_iff.2 (rfl : name.toList ++ ['[', ']'] = _)
  simp only [segmentsOf, hsome, String.ofList_toList]

/-- A name and the segments behind it are read back, as long as no two of them are `items` in a
row. -/
theorem flatMap_segmentsOf_splitAtPoints {name : String} (hname : ProperName name) :
    ∀ rest : List Segment, (∀ other, .member other ∈ rest → ProperName other) → ¬ Nested rest →
      (splitAtPoints (name.toList ++ rest.flatMap Segment.chars)).flatMap segmentsOf =
        .member name :: rest
  -- a name takes one `items` behind it into its own part, so the cases are those of what follows
  | [], _, _ => by
    rw [List.flatMap_nil, List.append_nil, splitAtPoints_of_notMem hname.noPoint,
      List.flatMap_singleton, segmentsOf_name hname.noBrackets]
  | .member other :: rest, hnames, hnested => by
    have ih := flatMap_segmentsOf_splitAtPoints (hnames other List.mem_cons_self) rest
      (fun next hnext => hnames next (List.mem_cons_of_mem _ hnext))
      (fun h => hnested (h.trans (List.suffix_cons _ _).isInfix))
    rw [List.flatMap_cons, Segment.chars, List.cons_append, splitAtPoints_append hname.noPoint,
      List.flatMap_cons, segmentsOf_name hname.noBrackets, ih]
    rfl
  | [.items], _, _ => by
    have hpart : '.' ∉ name.toList ++ ['[', ']'] := by simp [hname.noPoint]
    rw [List.flatMap_singleton, Segment.chars, splitAtPoints_of_notMem hpart,
      List.flatMap_singleton, segmentsOf_name_items]
  | .items :: .member other :: rest, hnames, hnested => by
    have hpart : '.' ∉ name.toList ++ ['[', ']'] := by simp [hname.noPoint]
    have ih := flatMap_segmentsOf_splitAtPoints (hnames other (by simp)) rest
      (fun next hnext => hnames next (by simp [hnext]))
      (fun h => hnested (h.trans ⟨[.items, .member other], [], by simp⟩))
    rw [List.flatMap_cons, List.flatMap_cons, Segment.chars, Segment.chars, ← List.append_assoc,
      List.cons_append, splitAtPoints_append hpart, List.flatMap_cons, segmentsOf_name_items, ih]
    rfl
  | .items :: .items :: rest, _, hnested => absurd ⟨[], rest, rfl⟩ hnested

/-- Segments that start with a member, have proper names and no two `items` in a row are those of
the path that they write. -/
theorem parsePath_renderPath {name : String} {rest : List Segment}
    (hnames : ∀ other, .member other ∈ Segment.member name :: rest → ProperName other)
    (hnested : ¬ Nested (.member name :: rest)) :
    parsePath (renderPath (.member name :: rest)) = .member name :: rest := by
  rw [parsePath, renderPath, String.toList_ofList, List.flatMap_cons, Segment.chars,
    List.cons_append, List.tail_cons]
  refine flatMap_segmentsOf_splitAtPoints (hnames name List.mem_cons_self) rest
    (fun other hother => hnames other (List.mem_cons_of_mem _ hother)) fun h => ?_
  exact hnested (h.trans (List.suffix_cons _ _).isInfix)

/-- The segments of a part are a name, or a name and `items`. -/
theorem segmentsOf_cases (part : List Char) :
    segmentsOf part = [.member (String.ofList part)] ∨
      ∃ name, part = name ++ ['[', ']'] ∧
        segmentsOf part = [.member (String.ofList name), .items] := by
  unfold segmentsOf
  cases h : arrayName? part with
  | none => exact .inl rfl
  | some name => exact .inr ⟨name, arrayName?_eq_some_iff.1 h, rfl⟩

/-- The segments of some parts do not start with `items`. -/
theorem flatMap_segmentsOf_ne_items (parts : List (List Char)) (segments : List Segment) :
    parts.flatMap segmentsOf ≠ .items :: segments := by
  cases parts with
  | nil => simp
  | cons part parts => obtain h | ⟨name, -, h⟩ := segmentsOf_cases part <;> simp [h]

/-- No path asks for the items of items. -/
theorem not_nested_parsePath (path : String) : ¬ Nested (parsePath path) := by
  unfold parsePath
  induction splitAtPoints path.toList with
  | nil => simp [Nested]
  | cons part parts ih =>
    rw [Nested] at ih ⊢
    obtain h | ⟨name, -, h⟩ := segmentsOf_cases part
    · rw [List.flatMap_cons, h]
      simp [List.infix_cons_iff, ih]
    · rw [List.flatMap_cons, h]
      intro hinfix
      rw [List.cons_append, List.cons_append, List.nil_append, List.infix_cons_iff,
        List.infix_cons_iff] at hinfix
      rcases hinfix with hmember | hitems | hrest
      · cases (List.cons_prefix_cons.1 hmember).1
      · obtain ⟨segments, hsegments⟩ := (List.cons_prefix_cons.1 hitems).2
        exact flatMap_segmentsOf_ne_items parts segments hsegments.symm
      · exact ih hrest

end FieldVault.Document
