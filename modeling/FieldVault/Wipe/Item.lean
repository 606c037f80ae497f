/-!
# What can be given to a scope

A scope tracks values by identity. What is handed to it is a single value, a nested collection
of values, or nothing; all that matters of it is its leaves. Values of unknown type can be
offered too: they are accepted only if everything in them can be wiped.
-/

set_option autoImplicit false

namespace FieldVault.Wipe

/-- The identity of a guarded value: its place among all values created. -/
abbrev ValueId := Nat

/-- A nested collection of values, each known by its identity or by a name. -/
inductive Item (α : Type) where
  | one (id : α)
  | many (items : List (Item α))
  | none

variable {α β : Type}

mutual

/-- The values of an item, in order. -/
def Item.leaves : Item α → List α
  | .one id => [id]
  | .many items => Item.leavesOf items
  | .none => []

/-- The values of a list of items, in order. -/
def Item.leavesOf : List (Item α) → List α
  | [] => []
  | item :: rest => item.leaves ++ Item.leavesOf rest

end

/-- The value of an item that is a single one. -/
def Item.single? : Item α → Option α
  | .one id => some id
  | .many _ => Option.none
  | .none => Option.none

mutual

/-- The item with every value found by `find`, if all of them are. -/
def Item.resolve? (find : α → Option β) : Item α → Option (Item β)
  | .one name => (find name).map .one
  | .many items => (Item.resolveAll? find items).map .many
  | .none => some .none

/-- The items with every value found by `find`, if all of them are. -/
def Item.resolveAll? (find : α → Option β) : List (Item α) → Option (List (Item β))
  | [] => some []
  | item :: rest => do return (← item.resolve? find) :: (← Item.resolveAll? find rest)

end

/-- A value whose type is only known when it is looked at. -/
inductive Untyped (α : Type) where
  | handle (id : α)
  | several (ids : List α)
  | optional (id : Option α)
  | item (item : Item α)
  | unit
  | group (values : List (Untyped α))
  /-- A value that cannot be wiped, with the name of its type. -/
  | foreign (typeName : String)

mutual

/-- The untyped value with every value in it found by `find`, if all of them are. -/
def Untyped.resolve? (find : α → Option β) : Untyped α → Option (Untyped β)
  | .handle name => (find name).map .handle
  | .several names => (names.mapM find).map .several
  | .optional none => some (.optional none)
  | .optional (some name) => (find name).map fun id => .optional (some id)
  | .item whole => (whole.resolve? find).map .item
  | .unit => some .unit
  | .group values => (Untyped.resolveAll? find values).map .group
  | .foreign typeName => some (.foreign typeName)

/-- The untyped values with every value in them found by `find`, if all of them are. -/
def Untyped.resolveAll? (find : α → Option β) : List (Untyped α) → Option (List (Untyped β))
  | [] => some []
  | value :: rest => do return (← value.resolve? find) :: (← Untyped.resolveAll? find rest)

end

/-- Why an untyped value was not accepted. -/
inductive Fault where
  | unsupportedType (typeName : String)
deriving DecidableEq

/-- The text of a fault. -/
def Fault.message : Fault → String
  | .unsupportedType typeName => "unsupported wipe type: " ++ typeName

/-- The type name under which a member of a group is known. -/
def groupMemberType : String := "Box<dyn Any>"

mutual

/-- The item that an untyped value holds, if everything in it can be wiped. -/
def Untyped.classify : Untyped α → Except Fault (Item α)
  | .handle id => .ok (.one id)
  | .several ids => .ok (.many (ids.map .one))
  | .optional (some id) => .ok (.one id)
  | .optional none => .ok .none
  | .item whole => .ok whole
  | .unit => .ok .none
  | .group values => (Untyped.classifyMembers values).map .many
  | .foreign typeName => .error (.unsupportedType typeName)

/-- The items that the members of a group hold; the type of a member is not known by name. -/
def Untyped.classifyMembers : List (Untyped α) → Except Fault (List (Item α))
  | [] => .ok []
  | .foreign _ :: _ => .error (.unsupportedType groupMemberType)
  | value :: rest => do
    let first ← value.classify
    let others ← Untyped.classifyMembers rest
    return first :: others

end

end FieldVault.Wipe
