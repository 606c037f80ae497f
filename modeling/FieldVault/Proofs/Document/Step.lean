import FieldVault.Document.Path
import FieldVault.Json

/-!
# Steps inside a value

A step goes from an object to the member with a name, or from an array to the item with an index.
What stands one step further is read with `child?` and changed with `modifyChild`; changes at
different steps do not touch each other (`child?_modifyChild_of_ne`, `modifyChild_comm`). A segment
of a path leads to all `children` whose steps match it (`mem_children`).
-/

set_option autoImplicit false

namespace FieldVault

namespace Document

/-- A step inside a value: to the member with a name, or to the item with an index. -/
inductive Step where
  | member (name : String)
  | item (index : Nat)
deriving DecidableEq

/-- The segment of a path that a step matches. -/
def Step.segment : Step → Segment
  | .member name => .member name
  | .item _ => .items

end Document

namespace Json

open Document

/-! ### Members by name -/

/-- The members with the value of one name changed. -/
def modifyMember (name : String) (f : Json → Json) :
    List (String × Json) → List (String × Json)
  | [] => []
  | (other, value) :: rest =>
    if name = other then (other, f value) :: rest else (other, value) :: modifyMember name f rest

section

variable {name other : String} {f g : Json → Json}

theorem lookup?_modifyMember_self (members : List (String × Json)) :
    lookup? name (modifyMember name f members) = (lookup? name members).map f := by
  induction members with
  | nil => rfl
  | cons first rest ih =>
    rw [modifyMember, lookup?]
    split
    · rename_i h
      rw [lookup?, if_pos h, Option.map_some]
    · rename_i h
      rw [lookup?, if_neg h, ih]

theorem lookup?_modifyMember_of_ne (h : name ≠ other) (members : List (String × Json)) :
    lookup? other (modifyMember name f members) = lookup? other members := by
  induction members with
  | nil => rfl
  | cons first rest ih =>
    rw [modifyMember, lookup?]
    split
    · rename_i heq
      have hne : other ≠ first.1 := heq ▸ h.symm
      rw [lookup?, if_neg hne, if_neg hne]
    · rw [lookup?, ih]

theorem modifyMember_modifyMember (members : List (String × Json)) :
    modifyMember name g (modifyMember name f members) =
      modifyMember name (fun value => g (f value)) members := by
  induction members with
  | nil => rfl
  | cons first rest ih =>
    rw [modifyMember, modifyMember]
    split
    · rename_i h
      rw [modifyMember, if_pos h]
    · rename_i h
      rw [modifyMember, if_neg h, ih]

theorem modifyMember_comm (h : name ≠ other) (members : List (String × Json)) :
    modifyMember other g (modifyMember name f members) =
      modifyMember name f (modifyMember other g members) := by
  induction members with
  | nil => rfl
  | cons first rest ih =>
    -- at most one of the two names is that of the first member
    by_cases hname : name = first.1
    · have hother : other ≠ first.1 := hname ▸ h.symm
      simp only [modifyMember, if_pos hname, if_neg hother]
    · by_cases hother : other = first.1
      · simp only [modifyMember, if_neg hname, if_pos hother]
      · simp only [modifyMember, if_neg hname, if_neg hother, ih]

theorem modifyMember_eq_self {value : Json} {members : List (String × Json)}
    (h : lookup? name members = some value) (hf : f value = value) :
    modifyMember name f members = members := by
  induction members with
  | nil => rfl
  | cons first rest ih =>
    rw [lookup?] at h
    rw [modifyMember]
    split
    · rename_i heq
      rw [if_pos heq] at h
      rw [Option.some.inj h, hf, ← Option.some.inj h]
    · rename_i hne
      rw [if_neg hne] at h
      rw [ih h]

end

/-! ### One step -/

/-- The text that a value is. -/
def text? : Json → Option String
  | .str text => some text
  | _ => none

/-- The text in place of a text; other values stay. -/
def replaceText (text : String) : Json → Json
  | .str _ => .str text
  | value => value

/-- The value one step further. -/
def child? : Step → Json → Option Json
  | .member name, .obj members => lookup? name members
  | .item index, .arr items => items[index]?
  | _, _ => none

/-- The value with the value one step further changed. -/
def modifyChild : Step → (Json → Json) → Json → Json
  | .member name, f, .obj members => .obj (modifyMember name f members)
  | .item index, f, .arr items => .arr (items.modify index f)
  | _, _, value => value

section

variable {step other : Step} {f g : Json → Json}

theorem child?_modifyChild_self (value : Json) :
    child? step (modifyChild step f value) = (child? step value).map f := by
  cases step with
  | member name =>
    cases value with
    | obj members => exact lookup?_modifyMember_self members
    | _ => rfl
  | item index =>
    cases value with
    | arr items => exact List.getElem?_modify_eq f index items
    | _ => rfl

theorem child?_modifyChild_of_ne (h : step ≠ other) (value : Json) :
    child? other (modifyChild step f value) = child? other value := by
  cases step with
  | member name =>
    cases value with
    | obj members =>
      cases other with
      | member otherName => exact lookup?_modifyMember_of_ne (mt (congrArg Step.member) h) members
      | item index => rfl
    | _ => rfl
  | item index =>
    cases value with
    | arr items =>
      cases other with
      | member name => rfl
      | item otherIndex => exact List.getElem?_modify_ne f items (mt (congrArg Step.item) h)
    | _ => rfl

theorem modifyChild_modifyChild (value : Json) :
    modifyChild step g (modifyChild step f value) =
      modifyChild step (fun child => g (f child)) value := by
  cases step with
  | member name =>
    cases value with
    | obj members => exact congrArg Json.obj (modifyMember_modifyMember members)
    | _ => rfl
  | item index =>
    cases value with
    | arr items => exact congrArg Json.arr (List.modify_modify_eq f g index items)
    | _ => rfl

theorem modifyChild_comm (h : step ≠ other) (value : Json) :
    modifyChild other g (modifyChild step f value) =
      modifyChild step f (modifyChild other g value) := by
  cases step with
  | member name =>
    cases value with
    | obj members =>
      cases other with
      | member otherName =>
        exact congrArg Json.obj (modifyMember_comm (mt (congrArg Step.member) h) members)
      | item index => rfl
    -- a value is not both an object and an array, so one of the two steps changes nothing
    | arr items => cases other <;> rfl
    | _ => cases other <;> rfl
  | item index =>
    cases value with
    | arr items =>
      cases other with
      | member name => rfl
      | item otherIndex =>
        exact congrArg Json.arr (List.modify_modify_ne f g items (mt (congrArg Step.item) h))
    | obj members => cases other <;> rfl
    | _ => cases other <;> rfl

theorem modifyChild_eq_self {value child : Json} (h : child? step value = some child)
    (hf : f child = child) : modifyChild step f value = value := by
  cases step with
  | member name =>
    cases value with
    | obj members => exact congrArg Json.obj (modifyMember_eq_self h hf)
    | _ => rfl
  | item index =>
    cases value with
    | arr items =>
      refine congrArg Json.arr (List.ext_getElem? fun i => ?_)
      rw [List.getElem?_modify]
      by_cases heq : index = i
      · have hi : items[i]? = some child := heq ▸ h
        simp [hi, heq, hf]
      · simp [heq]
    | _ => rfl

@[simp] theorem text?_modifyChild (value : Json) :
    text? (modifyChild step f value) = text? value := by
  cases step <;> cases value <;> rfl

@[simp] theorem child?_replaceText (text : String) (value : Json) :
    child? step (replaceText text value) = child? step value := by
  cases step <;> cases value <;> rfl

theorem modifyChild_replaceText (text : String) (value : Json) :
    modifyChild step f (replaceText text value) = replaceText text (modifyChild step f value) := by
  cases step <;> cases value <;> rfl

end

/-! ### The steps that match a segment -/

/-- What stands one step further for the steps that match a segment, with these steps. -/
def children : Segment → Json → List (Step × Json)
  | .member name, .obj members =>
    ((lookup? name members).map fun value => (.member name, value)).toList
  | .items, .arr items => items.zipIdx.map fun entry => (.item entry.2, entry.1)
  | _, _ => []

theorem mem_children {segment : Segment} {step : Step} {value child : Json} :
    (step, child) ∈ children segment value ↔
      step.segment = segment ∧ child? step value = some child := by
  cases segment with
  | member name =>
    cases value with
    | obj members =>
      cases step with
      | member other =>
        -- the only child is the one under the name of the segment
        simp only [children, Option.mem_toList, Option.map_eq_some_iff, Prod.mk.injEq,
          Step.member.injEq, Step.segment, Segment.member.injEq, child?]
        constructor
        · rintro ⟨_, h, rfl, rfl⟩
          exact ⟨rfl, h⟩
        · rintro ⟨rfl, h⟩
          exact ⟨child, h, rfl, rfl⟩
      | item index => simp [children, Step.segment]
    | _ => cases step <;> simp [children, Step.segment, child?]
  | items =>
    cases value with
    | arr items =>
      cases step with
      | member name => simp [children, Step.segment]
      | item index =>
        -- the children are the items, each with its number
        simp only [children, List.mem_map, Prod.mk.injEq, Step.item.injEq, Step.segment, true_and,
          child?]
        constructor
        · rintro ⟨entry, h, rfl, rfl⟩
          exact List.mem_zipIdx_iff_getElem?.1 h
        · intro h
          exact ⟨(child, index), List.mem_zipIdx_iff_getElem?.2 h, rfl, rfl⟩
    | _ => cases step <;> simp [children, Step.segment, child?]

/-- A segment leads to every step once. -/
theorem nodup_children (segment : Segment) (value : Json) :
    ((children segment value).map Prod.fst).Nodup := by
  cases segment with
  | member name =>
    cases value with
    | obj members => cases h : lookup? name members <;> simp [children, h]
    | _ => exact List.nodup_nil
  | items =>
    cases value with
    | arr items =>
      -- the steps are the numbers of the items
      have hsteps : (children .items (.arr items)).map Prod.fst =
          (List.range' 0 items.length).map Step.item := by
        rw [children, List.map_map, ← List.zipIdx_map_snd 0 items, List.map_map]
        rfl
      rw [hsteps]
      exact List.Pairwise.map _ (fun _ _ hne h => hne (Step.item.inj h)) List.nodup_range'
    | _ => exact List.nodup_nil

/-- A changed value stands where it stood. -/
theorem children_modifyChild (segment : Segment) (step : Step) (f : Json → Json) (value : Json) :
    children segment (modifyChild step f value) =
      (children segment value).map fun entry =>
        if entry.1 = step then (entry.1, f entry.2) else entry := by
  cases segment with
  | member name =>
    cases value with
    | obj members =>
      cases step with
      | member other =>
        by_cases h : other = name
        · subst h
          cases hvalue : lookup? other members <;>
            simp [children, modifyChild, lookup?_modifyMember_self, hvalue]
        · cases hvalue : lookup? name members <;>
            simp [children, modifyChild, lookup?_modifyMember_of_ne h, hvalue, Ne.symm h]
      | item index =>
        cases hvalue : lookup? name members <;> simp [children, modifyChild, hvalue]
    | _ => cases step <;> rfl
  | items =>
    cases value with
    | arr items =>
      -- item by item: a step to a member changes none, a step to an item that one
      apply List.ext_getElem?
      intro i
      cases step with
      | member name =>
        simp only [children, modifyChild, List.map_map, List.getElem?_map]
        cases items.zipIdx[i]? <;> simp
      | item index =>
        simp only [children, modifyChild, List.map_map, List.getElem?_map, List.getElem?_zipIdx,
          List.getElem?_modify]
        cases items[i]? with
        | none => rfl
        | some item =>
          by_cases h : index = i
          · simp [h]
          · simp [h, Ne.symm h]
    | _ => cases step <;> rfl

@[simp] theorem children_replaceText (segment : Segment) (text : String) (value : Json) :
    children segment (replaceText text value) = children segment value := by
  cases segment <;> cases value <;> rfl

end Json

end FieldVault
