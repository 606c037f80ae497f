/-!
# Finding the repository of an entity type

Repositories are registered by name and each declares one entity type. Which of several that
declare the same type is found depends on the order in which the registry is scanned, so the
first answer for a type is kept and given from then on.
-/

set_option autoImplicit false

namespace FieldVault

/-- The registered repositories with the entity types they declare, and the answers so far. -/
structure Resolver where
  /-- Repository names with the entity type each declares. -/
  registry : List (String × String)
  /-- Entity types with the name of the repository found for each. -/
  cache : List (String × String)

namespace Resolver

/-- Why no repository was found. -/
inductive Fault where
  | noRepository (entity : String)
deriving DecidableEq

/-- The text of a fault. -/
def Fault.message : Fault → String
  | .noRepository entity => "no repository registered for entity type: " ++ entity

/-- A resolver that has not been asked. -/
def new (registry : List (String × String)) : Resolver := ⟨registry, []⟩

/-- The name of the repository for an entity type, when the registry is scanned in the order
given. -/
def resolveIn (r : Resolver) (scan : List (String × String)) (entity : String) :
    Except Fault String × Resolver :=
  match r.cache.lookup entity with
  | some name => (.ok name, r)
  | none =>
    match scan.find? fun entry => entry.2 == entity with
    | some (name, _) => (.ok name, { r with cache := (entity, name) :: r.cache })
    | none => (.error (.noRepository entity), r)

/-- The name of the repository for an entity type. -/
def resolve (r : Resolver) (entity : String) : Except Fault String × Resolver :=
  r.resolveIn r.registry entity

/-- The number of entity types resolved so far. -/
def cached (r : Resolver) : Nat := r.cache.length

/-- The number of registered repositories. -/
def registered (r : Resolver) : Nat := r.registry.length

/-- The entity type that a repository declares. -/
def entityOf? (r : Resolver) (name : String) : Option String := r.registry.lookup name

/-- How a resolver shows itself. -/
def describe (r : Resolver) : String :=
  "RepositoryResolver \x7b registered: " ++ toString r.registered ++ ", cached: "
    ++ toString r.cached ++ " \x7d"

end Resolver

end FieldVault
