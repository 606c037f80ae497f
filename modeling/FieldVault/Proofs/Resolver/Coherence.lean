import FieldVault.Proofs.Resolver
import Mathlib.Data.Finset.Card

/-!
# One repository for each entity type

Several repositories may declare one entity type, and the registry may be scanned in another order
each time. Still the answers for an entity type agree, in every run of inquiries: what is kept are
exactly the answers that were given (`Keeps`), each of them names a repository that declares the
type, and an answer that is kept is given again. The main statement is `resolutions_coherent`.
-/

set_option autoImplicit false

namespace FieldVault.Resolver

/-- A question to a resolver: the entity type that is asked for, and the order in which the
registry is scanned should nothing be kept for it. -/
structure Inquiry where
  entity : String
  scan : List (String × String)

/-- An entity type that was asked for, and the answer. -/
abbrev Reply := String × Except Fault String

/-- The replies to some inquiries, and the resolver that has given them. -/
def run (r : Resolver) : List Inquiry → List Reply × Resolver
  | [] => ([], r)
  | inquiry :: rest =>
    let (answer, r) := r.resolveIn inquiry.scan inquiry.entity
    let (replies, r) := r.run rest
    ((inquiry.entity, answer) :: replies, r)

/-- The entity types for which a repository was found. -/
def resolved (replies : List Reply) : Finset String :=
  (replies.filterMap fun reply => reply.2.toOption.map fun _ => reply.1).toFinset

/-- The entity types that repositories of a registry declare. -/
def declared (registry : List (String × String)) : Finset String :=
  (registry.map Prod.snd).toFinset

/-- The answer to an inquiry fits the registry and the replies before it, and the resolver
afterwards has kept it. -/
structure Coherent (registry : List (String × String)) (replies : List Reply) (before : Resolver)
    (entity : String) (answer : Except Fault String) (after : Resolver) : Prop where
  /-- A repository is found if there is one for the entity type. -/
  found_iff : (∃ name, answer = .ok name) ↔ ∃ name, (name, entity) ∈ registry
  /-- What is found declares the entity type. -/
  declares : ∀ name, answer = .ok name → after.entityOf? name = some entity
  /-- It is what was found for the entity type before. -/
  same : ∀ name earlier, answer = .ok name → (entity, .ok earlier) ∈ replies → earlier = name
  /-- If nothing is found, the fault names the entity type and nothing is kept. -/
  refused : ∀ fault, answer = .error fault → fault = .noRepository entity ∧ after = before
  /-- One answer is kept for each entity type for which a repository was found. -/
  cached_eq : after.cached = (resolved (replies ++ [(entity, answer)])).card
  /-- No more answers are kept than entity types are declared. -/
  cached_le : after.cached ≤ (declared registry).card
  /-- The registry stays as it is. -/
  registered_eq : after.registered = registry.length

/-- A resolver keeps the answers that it has given: one for each entity type, and each of them the
name of a repository that declares the type. -/
structure Keeps (registry : List (String × String)) (replies : List Reply) (r : Resolver) :
    Prop where
  registry_eq : r.registry = registry
  lookup_iff : ∀ entity name, r.cache.lookup entity = some name ↔ (entity, .ok name) ∈ replies
  mem_registry : ∀ entity name, (entity, .ok name) ∈ replies → (name, entity) ∈ registry
  nodup : (r.cache.map Prod.fst).Nodup

variable {registry scan : List (String × String)} {replies : List Reply} {r : Resolver}
  {entity name : String}

/-! ### Names and entity types -/

theorem mem_resolved : entity ∈ resolved replies ↔ ∃ name, (entity, .ok name) ∈ replies := by
  simp only [resolved, List.mem_toFinset, List.mem_filterMap, Option.map_eq_some_iff]
  constructor
  · rintro ⟨⟨other, answer⟩, hmem, name, hname, rfl⟩
    cases answer with
    | error fault => cases hname
    | ok found => exact ⟨found, hmem⟩
  · rintro ⟨name, hmem⟩
    exact ⟨_, hmem, name, rfl, rfl⟩

theorem mem_declared : entity ∈ declared registry ↔ ∃ name, (name, entity) ∈ registry := by
  simp [declared]

/-- A name is found under one entry, if no name is registered twice. -/
theorem lookup_of_mem (h : (registry.map Prod.fst).Nodup) (hmem : (name, entity) ∈ registry) :
    registry.lookup name = some entity := by
  induction registry with
  | nil => cases hmem
  | cons first rest ih =>
    obtain ⟨other, type⟩ := first
    simp only [List.map_cons, List.nodup_cons] at h
    rcases List.mem_cons.1 hmem with heq | hrest
    · cases heq
      exact List.lookup_cons_self
    · have hne : name ≠ other := by
        rintro rfl
        exact h.1 (List.mem_map_of_mem hrest)
      rw [List.lookup_cons, beq_false_of_ne hne]
      exact ih h.2 hrest

/-- What is kept is listed under its entity type. -/
theorem mem_keys_iff {cache : List (String × String)} :
    entity ∈ cache.map Prod.fst ↔ ∃ name, cache.lookup entity = some name := by
  induction cache with
  | nil => simp
  | cons first rest ih =>
    obtain ⟨other, kept⟩ := first
    by_cases heq : entity = other
    · subst heq
      simp
    · rw [List.lookup_cons, beq_false_of_ne heq, List.map_cons, List.mem_cons, ← ih]
      simp [heq]

/-! ### Runs -/

theorem keeps_new (registry : List (String × String)) : Keeps registry [] (new registry) where
  registry_eq := rfl
  lookup_iff := by simp [new]
  mem_registry := by simp
  nodup := List.nodup_nil

/-- The entity types of what is kept are those for which a repository was found. -/
theorem Keeps.cached_eq (h : Keeps registry replies r) : r.cached = (resolved replies).card := by
  have hsame : (r.cache.map Prod.fst).toFinset = resolved replies := by
    ext entity
    simp only [List.mem_toFinset, mem_keys_iff, h.lookup_iff, mem_resolved]
  rw [← hsame, List.toFinset_card_of_nodup h.nodup, List.length_map, cached]

theorem Keeps.resolved_subset (h : Keeps registry replies r) :
    resolved replies ⊆ declared registry := by
  intro entity hmem
  obtain ⟨name, hreply⟩ := mem_resolved.1 hmem
  exact mem_declared.2 ⟨name, h.mem_registry _ _ hreply⟩

/-- What is kept fits the replies after every inquiry. -/
theorem Keeps.resolveIn (h : Keeps registry replies r) (hscan : scan.Perm registry)
    (entity : String) :
    Keeps registry (replies ++ [(entity, (r.resolveIn scan entity).1)])
      (r.resolveIn scan entity).2 := by
  rcases resolveIn_cases r scan entity with
    ⟨name, hkept, heq⟩ | ⟨hkept, name, hmem, heq⟩ | ⟨hkept, hnone, heq⟩
  · -- the answer was given before
    have hgiven := (h.lookup_iff entity name).1 hkept
    rw [heq]
    refine ⟨h.registry_eq, fun other found => ?_, fun other found hreply => ?_, h.nodup⟩
    · rw [h.lookup_iff]
      simp only [List.mem_append, List.mem_singleton]
      constructor
      · exact .inl
      · rintro (hold | hnew)
        · exact hold
        · cases hnew
          exact hgiven
    · rcases List.mem_append.1 hreply with hold | hnew
      · exact h.mem_registry _ _ hold
      · cases List.mem_singleton.1 hnew
        exact h.mem_registry _ _ hgiven
  · -- the answer is new, and the only one for its entity type
    have hfresh : ∀ found, (entity, .ok found) ∉ replies := by
      intro found hreply
      rw [← h.lookup_iff, hkept] at hreply
      cases hreply
    rw [heq]
    refine ⟨h.registry_eq, fun other found => ?_, fun other found hreply => ?_, ?_⟩
    · by_cases hother : other = entity
      · subst hother
        simp only [List.lookup_cons_self, List.mem_append, List.mem_singleton, hfresh, false_or,
          Prod.mk.injEq, true_and, Option.some.injEq, Except.ok.injEq]
        exact eq_comm
      · rw [List.lookup_cons, beq_false_of_ne hother]
        simp [h.lookup_iff, hother]
    · rcases List.mem_append.1 hreply with hold | hnew
      · exact h.mem_registry _ _ hold
      · cases List.mem_singleton.1 hnew
        exact hscan.mem_iff.1 hmem
    · refine List.nodup_cons.2 ⟨fun hkeys => ?_, h.nodup⟩
      obtain ⟨found, hfound⟩ := mem_keys_iff.1 hkeys
      rw [hkept] at hfound
      cases hfound
  · -- no answer is given
    rw [heq]
    refine ⟨h.registry_eq, fun other found => ?_, fun other found hreply => ?_, h.nodup⟩
    · simp [h.lookup_iff]
    · refine h.mem_registry _ _ ?_
      simpa using hreply

theorem Keeps.run (h : Keeps registry replies r) {inquiries : List Inquiry}
    (hscans : ∀ inquiry ∈ inquiries, inquiry.scan.Perm registry) :
    Keeps registry (replies ++ (r.run inquiries).1) (r.run inquiries).2 := by
  induction inquiries generalizing r replies with
  | nil => simpa [Resolver.run] using h
  | cons inquiry rest ih =>
    obtain ⟨hfirst, hrest⟩ := List.forall_mem_cons.1 hscans
    have hnext := ih (h.resolveIn hfirst inquiry.entity) hrest
    simpa [Resolver.run] using hnext

/-- In a run of inquiries, each with its own order of the scan, every answer is coherent with the
registry and with the replies before it. -/
theorem resolutions_coherent {registry : List (String × String)} {inquiries : List Inquiry}
    {next : Inquiry} (hnames : (registry.map Prod.fst).Nodup)
    (hscans : ∀ inquiry ∈ inquiries, inquiry.scan.Perm registry)
    (hscan : next.scan.Perm registry) :
    Coherent registry ((new registry).run inquiries).1 ((new registry).run inquiries).2 next.entity
      (((new registry).run inquiries).2.resolveIn next.scan next.entity).1
      (((new registry).run inquiries).2.resolveIn next.scan next.entity).2 := by
  have hbefore := (keeps_new registry).run hscans
  rw [List.nil_append] at hbefore
  generalize ((new registry).run inquiries).1 = replies at *
  generalize ((new registry).run inquiries).2 = before at *
  have hafter := hbefore.resolveIn hscan next.entity
  have hgiven : ∀ name, (before.resolveIn next.scan next.entity).1 = .ok name →
      (next.entity, .ok name) ∈
        replies ++ [(next.entity, (before.resolveIn next.scan next.entity).1)] := by
    intro name hname
    simp [hname]
  refine ⟨?_, ?_, ?_, ?_, hafter.cached_eq, ?_, ?_⟩
  · constructor
    · rintro ⟨name, hname⟩
      exact ⟨name, hafter.mem_registry _ _ (hgiven name hname)⟩
    · rintro ⟨name, hmem⟩
      rcases resolveIn_cases before next.scan next.entity with
        ⟨found, -, heq⟩ | ⟨-, found, -, heq⟩ | ⟨-, hnone, -⟩
      · exact ⟨found, by rw [heq]⟩
      · exact ⟨found, by rw [heq]⟩
      · exact absurd (hscan.mem_iff.2 hmem) (hnone name)
  · intro name hname
    rw [entityOf?, hafter.registry_eq]
    exact lookup_of_mem hnames (hafter.mem_registry _ _ (hgiven name hname))
  · intro name earlier hname hearlier
    -- both answers are what is kept afterwards
    have hfirst := (hafter.lookup_iff _ _).2 (List.mem_append_left _ hearlier)
    have hlast := (hafter.lookup_iff _ _).2 (hgiven name hname)
    rw [hfirst] at hlast
    exact Option.some.inj hlast
  · intro fault hfault
    rcases resolveIn_cases before next.scan next.entity with
      ⟨found, -, heq⟩ | ⟨-, found, -, heq⟩ | ⟨-, -, heq⟩ <;> rw [heq] at hfault ⊢ <;> cases hfault
    exact ⟨rfl, rfl⟩
  · rw [hafter.cached_eq]
    exact Finset.card_le_card hafter.resolved_subset
  · rw [registered, hafter.registry_eq]

/-- A registry in which two repositories declare one entity type. -/
def books : List (String × String) :=
  [("ledger", "Customer"), ("archive", "Customer"), ("bills", "Invoice")]

/-- A scan that meets the archive first still gives the ledger, which was given before. -/
theorem ledger_given_again :
    let inquiries : List Inquiry := [⟨"Customer", books⟩, ⟨"Payment", books.reverse⟩]
    let next : Inquiry := ⟨"Customer", books.rotate 1⟩
    let replies := ((new books).run inquiries).1
    let before := ((new books).run inquiries).2
    let answer := (before.resolveIn next.scan next.entity).1
    let after := (before.resolveIn next.scan next.entity).2
    (books.map Prod.fst).Nodup ∧ (∀ inquiry ∈ inquiries, inquiry.scan.Perm books) ∧
      next.scan.Perm books ∧ ((new books).resolveIn next.scan next.entity).1 = .ok "archive" ∧
      answer = .ok "ledger" ∧ Coherent books replies before next.entity answer after := by
  intro inquiries next replies before answer after
  have hnames : (books.map Prod.fst).Nodup := by decide
  have hscans : ∀ inquiry ∈ inquiries, inquiry.scan.Perm books := by decide
  have hscan : next.scan.Perm books := by decide
  exact ⟨hnames, hscans, hscan, by decide, by decide, resolutions_coherent hnames hscans hscan⟩

end FieldVault.Resolver
