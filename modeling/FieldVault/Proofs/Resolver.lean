import FieldVault.Resolver

/-!
# What a resolver keeps

A resolver keeps the answers that it has given. Each is a repository that declares the entity type
which was asked for (`Settled`), whatever has been asked before.
-/

set_option autoImplicit false

namespace FieldVault

namespace Resolver

variable {r : Resolver} {entity name : String}

/-- What a resolver has kept for an entity type is a repository that declares it. -/
def Settled (r : Resolver) : Prop :=
  ∀ entity name, r.cache.lookup entity = some name → (name, entity) ∈ r.registry

/-- The resolver after it has been asked for some entity types. -/
def afterAsked (r : Resolver) (entities : List String) : Resolver :=
  entities.foldl (fun r entity => (r.resolve entity).2) r

theorem afterAsked_append (r : Resolver) (first second : List String) :
    r.afterAsked (first ++ second) = (r.afterAsked first).afterAsked second := List.foldl_append

/-- An inquiry is answered from what is kept, or by the first repository of the scan that declares
the entity type, which is then kept, or not at all. -/
theorem resolveIn_cases (r : Resolver) (scan : List (String × String)) (entity : String) :
    (∃ name, r.cache.lookup entity = some name ∧ r.resolveIn scan entity = (.ok name, r)) ∨
    (r.cache.lookup entity = none ∧ ∃ name, (name, entity) ∈ scan ∧
      r.resolveIn scan entity = (.ok name, { r with cache := (entity, name) :: r.cache })) ∨
    (r.cache.lookup entity = none ∧ (∀ name, (name, entity) ∉ scan) ∧
      r.resolveIn scan entity = (.error (.noRepository entity), r)) := by
  cases hkept : r.cache.lookup entity with
  | some name => exact .inl ⟨name, rfl, by simp only [resolveIn, hkept]⟩
  | none =>
    cases hfind : scan.find? fun entry => entry.2 == entity with
    | some entry =>
      obtain ⟨name, other⟩ := entry
      have hother : other = entity := by simpa using List.find?_some hfind
      subst hother
      refine .inr (.inl ⟨rfl, name, List.mem_of_find?_eq_some hfind, ?_⟩)
      simp only [resolveIn, hkept, hfind]
    | none =>
      refine .inr (.inr ⟨rfl, ?_, by simp only [resolveIn, hkept, hfind]⟩)
      intro name hmem
      simpa using List.find?_eq_none.1 hfind _ hmem

/-- What is kept is given again. -/
theorem resolve_of_lookup (h : r.cache.lookup entity = some name) :
    r.resolve entity = (.ok name, r) := by
  rw [resolve, resolveIn, h]

/-- What is given is kept. -/
theorem lookup_resolve (h : (r.resolve entity).1 = .ok name) :
    (r.resolve entity).2.cache.lookup entity = some name := by
  rcases resolveIn_cases r r.registry entity with
    ⟨found, hkept, heq⟩ | ⟨-, found, -, heq⟩ | ⟨-, -, heq⟩ <;>
    rw [resolve, heq] at h ⊢ <;> cases h
  · exact hkept
  · exact List.lookup_cons_self

/-- What is kept for an entity type stays, whatever is asked for. -/
theorem lookup_resolve_of_lookup (h : r.cache.lookup entity = some name) (asked : String) :
    (r.resolve asked).2.cache.lookup entity = some name := by
  rcases resolveIn_cases r r.registry asked with
    ⟨found, -, heq⟩ | ⟨hnone, found, -, heq⟩ | ⟨-, -, heq⟩ <;> rw [resolve, heq]
  · exact h
  · -- the new answer is for another entity type
    have hne : entity ≠ asked := by
      rintro rfl
      rw [h] at hnone
      cases hnone
    rw [List.lookup_cons, beq_false_of_ne hne]
    exact h
  · exact h

theorem registry_resolve (r : Resolver) (entity : String) :
    (r.resolve entity).2.registry = r.registry := by
  rcases resolveIn_cases r r.registry entity with
    ⟨found, -, heq⟩ | ⟨-, found, -, heq⟩ | ⟨-, -, heq⟩ <;> rw [resolve, heq]

/-- The answer is a repository that declares the entity type. -/
theorem Settled.mem_registry (h : r.Settled) (hname : (r.resolve entity).1 = .ok name) :
    (name, entity) ∈ r.registry := by
  rcases resolveIn_cases r r.registry entity with
    ⟨found, hkept, heq⟩ | ⟨-, found, hmem, heq⟩ | ⟨-, -, heq⟩ <;>
    rw [Resolver.resolve, heq] at hname <;> cases hname
  · exact h entity _ hkept
  · exact hmem

theorem Settled.resolve (h : r.Settled) (entity : String) : (r.resolve entity).2.Settled := by
  intro other name hkept
  rw [registry_resolve]
  rcases resolveIn_cases r r.registry entity with
    ⟨found, -, heq⟩ | ⟨-, found, hmem, heq⟩ | ⟨-, -, heq⟩ <;>
    rw [Resolver.resolve, heq] at hkept
  · exact h other name hkept
  · -- only the answer that has just been given is new
    rw [List.lookup_cons] at hkept
    split at hkept
    · rename_i hsame
      cases hkept
      rw [eq_of_beq hsame]
      exact hmem
    · exact h other name hkept
  · exact h other name hkept

theorem registry_afterAsked (r : Resolver) (entities : List String) :
    (r.afterAsked entities).registry = r.registry := by
  induction entities generalizing r with
  | nil => rfl
  | cons entity rest ih => exact (ih _).trans (registry_resolve r entity)

theorem Settled.afterAsked (h : r.Settled) (entities : List String) :
    (r.afterAsked entities).Settled := by
  induction entities generalizing r with
  | nil => exact h
  | cons entity rest ih => exact ih (h.resolve entity)

end Resolver

end FieldVault
