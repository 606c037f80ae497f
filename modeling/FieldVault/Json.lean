import FieldVault.Binary64

/-!
# JSON values

A value as it stands in a text keeps every member of every object in the order given, repeated
names included. Its canonical form (`Json.canonical`) keeps one member for each name, the last
one given, in the order of the names. Documents are canonical values.
-/

set_option autoImplicit false

namespace FieldVault

/-- A JSON value. Numbers without fraction and exponent that fit 64 bits are integers, all
others are doubles. -/
inductive Json where
  | null
  | bool (value : Bool)
  | int (value : Int)
  | double (value : Binary64)
  | str (text : String)
  | arr (items : List Json)
  | obj (members : List (String × Json))

namespace Json

/-- The sorted association list with the value of one name set. -/
def insertMember {α : Type} (name : String) (value : α) : List (String × α) → List (String × α)
  | [] => [(name, value)]
  | (other, old) :: rest =>
    if name < other then (name, value) :: (other, old) :: rest
    else if name = other then (name, value) :: rest
    else (other, old) :: insertMember name value rest

/-- A member that was set is the new one or one of the others. -/
theorem mem_insertMember {α : Type} {name : String} {value : α} {members : List (String × α)}
    {member : String × α} (h : member ∈ insertMember name value members) :
    member = (name, value) ∨ member ∈ members := by
  induction members with
  | nil => exact .inl (List.mem_singleton.1 h)
  | cons first rest ih =>
    rw [insertMember] at h
    split at h
    · exact List.mem_cons.1 h
    · split at h
      · exact (List.mem_cons.1 h).imp_right (List.mem_cons_of_mem _)
      · rcases List.mem_cons.1 h with hfirst | hrest
        · exact .inr (hfirst ▸ List.mem_cons_self)
        · exact (ih hrest).imp_right (List.mem_cons_of_mem _)

/-- A name is put where it belongs in the order. -/
theorem pairwise_insertMember {α : Type} {name : String} {value : α} {members : List (String × α)}
    (h : members.Pairwise fun a b => a.1 < b.1) :
    (insertMember name value members).Pairwise fun a b => a.1 < b.1 := by
  induction members with
  | nil => exact List.pairwise_singleton _ _
  | cons first rest ih =>
    obtain ⟨hfirst, hrest⟩ := List.pairwise_cons.1 h
    rw [insertMember]
    split
    · rename_i hlt
      refine List.pairwise_cons.2 ⟨fun member hmember => ?_, h⟩
      rcases List.mem_cons.1 hmember with rfl | hmember
      · exact hlt
      · exact String.lt_trans hlt (hfirst member hmember)
    · split
      · rename_i heq
        exact List.pairwise_cons.2 ⟨fun member hmember => heq ▸ hfirst member hmember, hrest⟩
      · rename_i hlt hne
        refine List.pairwise_cons.2 ⟨fun member hmember => ?_, ih hrest⟩
        rcases mem_insertMember hmember with rfl | hold
        · -- the order is total
          apply Decidable.byContradiction
          intro hnot
          exact hne (String.le_antisymm hnot hlt)
        · exact hfirst member hold

/-- The value of a name in an association list. -/
def lookup? {α : Type} (name : String) : List (String × α) → Option α
  | [] => none
  | (other, value) :: rest => if name = other then some value else lookup? name rest

mutual

/-- The value with one member for each name of every object, in the order of the names. -/
def canonical : Json → Json
  | .arr items => .arr (canonicalItems items)
  | .obj members => .obj (canonicalMembers [] members)
  | .null => .null
  | .bool b => .bool b
  | .int i => .int i
  | .double x => .double x
  | .str s => .str s

/-- The canonical forms of the items of an array. -/
def canonicalItems : List Json → List Json
  | [] => []
  | item :: rest => canonical item :: canonicalItems rest

/-- The canonical members of an object, with those already seen. -/
def canonicalMembers (seen : List (String × Json)) :
    List (String × Json) → List (String × Json)
  | [] => seen
  | (name, value) :: rest => canonicalMembers (insertMember name (canonical value) seen) rest

end

/-- Whether a value is an object. -/
def isObject : Json → Bool
  | .obj _ => true
  | _ => false

end Json

end FieldVault
