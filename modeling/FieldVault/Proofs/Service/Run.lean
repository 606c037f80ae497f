import FieldVault.Proofs.Document.Digest
import FieldVault.Proofs.Resolver
import FieldVault.Proofs.Vault
import FieldVault.Service

/-!
# What the parts of a request come to

A handler has an outcome: an answer or a fault, and the service it leaves. The outcome of a handler
is put together from those of its parts (`outcome_bind`), which are written down here: work on the
vault, the search for a repository, the copy of the master secret, and the storing of a document.
A request is answered in a scope that is new (`handle_run`), so that nothing older is tracked by it.
-/

set_option autoImplicit false

namespace FieldVault.Service

open Document (Collection Stored)
open Http (Request Response Route)
open Wipe (ValueId)

variable {α β : Type}

/-- The service with another vault. -/
def withVault (s : Service) (v : Vault) : Service := { s with vault := v }

@[simp] theorem withVault_vault (s : Service) (v : Vault) : (s.withVault v).vault = v := rfl

@[simp] theorem withVault_withVault (s : Service) (v w : Vault) :
    (s.withVault v).withVault w = s.withVault w := rfl

@[simp] theorem collection?_withVault (s : Service) (v : Vault) (name : String) :
    (s.withVault v).collection? name = s.collection? name := rfl

/-! ### Outcomes -/

/-- What a handler answers, and the service it leaves. -/
def outcome (x : Handler α) (s : Service) : Except ServiceFault α × Service := x.run.run s

/-- A handler goes on unless it has refused. -/
theorem outcome_bind (x : Handler α) (f : α → Handler β) (s : Service) :
    outcome (x >>= f) s =
      match outcome x s with
      | (.ok a, t) => outcome (f a) t
      | (.error fault, t) => (.error fault, t) := by
  have hrun : outcome (x >>= f) s = (ExceptT.bindCont f (outcome x s).1).run (outcome x s).2 := rfl
  rw [hrun]
  obtain ⟨fault | a, t⟩ := outcome x s
  · rfl
  · rfl

/-- What is done after a handler that has given a result. -/
theorem outcome_bind_of_ok {x : Handler α} {s t : Service} {a : α} (h : outcome x s = (.ok a, t))
    (f : α → Handler β) : outcome (x >>= f) s = outcome (f a) t := by
  rw [outcome_bind, h]

theorem outcome_pure (a : α) (s : Service) : outcome (pure a) s = (.ok a, s) := rfl

theorem outcome_throw (fault : ServiceFault) (s : Service) :
    outcome (throw fault : Handler α) s = (.error fault, s) := rfl

theorem outcome_get (s : Service) : outcome get s = (.ok s, s) := rfl

/-- Work on the service cannot refuse. -/
theorem outcome_service (work : ServiceM α) (s : Service) :
    outcome (liftM work) s = (.ok (work.run s).1, (work.run s).2) := rfl

/-- Work on the vault cannot refuse and leaves the rest of the service alone. -/
theorem outcome_vault (work : VaultM α) (s : Service) :
    outcome (liftM work) s = (.ok (work.run s.vault).1, s.withVault (work.run s.vault).2) := rfl

theorem outcome_release (id : ValueId) (s : Service) :
    outcome (liftM (release id)) s = (.ok (), s.withVault (s.vault.letGo id)) := rfl

/-! ### Repositories -/

/-- The repository of an entity type is the collection under the name that the resolver gives. -/
theorem outcome_repository (entity : String) (s : Service) :
    outcome (repository entity) s =
      let found := s.resolver.resolve entity
      let t := { s with resolver := found.2 }
      match found.1 with
      | .error fault => (.error (.notFound fault.message), t)
      | .ok name =>
        match s.collection? name with
        | some c => (.ok (name, c), t)
        | none => (.error (.notFound (Resolver.Fault.noRepository entity).message), t) := by
  -- the resolver keeps its answer first, so whatever follows leaves it behind
  have hrun : outcome (repository entity) s =
      outcome (match (s.resolver.resolve entity).1 with
        | .error fault => throw (.notFound fault.message)
        | .ok name => do
          match (← get).collection? name with
          | some c => return (name, c)
          | none => throw (.notFound (Resolver.Fault.noRepository entity).message))
        { s with resolver := (s.resolver.resolve entity).2 } := rfl
  rw [hrun]
  dsimp only
  cases (s.resolver.resolve entity).1 with
  | error fault => rfl
  | ok name =>
    have hsame : collection? { s with resolver := (s.resolver.resolve entity).2 } name =
        s.collection? name := rfl
    rw [outcome_bind_of_ok (outcome_get _)]
    dsimp only
    rw [hsame]
    cases s.collection? name with
    | some c => rfl
    | none => rfl

/-- The repository found for an entity type is found for it from then on. -/
theorem found_of_repository {s t : Service} {entity name : String} {c : Collection}
    (h : outcome (repository entity) s = (.ok (name, c), t)) :
    t = { s with resolver := (s.resolver.resolve entity).2 } ∧
      t.resolver.cache.lookup entity = some name ∧ t.collection? name = some c := by
  rw [outcome_repository] at h
  dsimp only at h
  cases hresolved : (s.resolver.resolve entity).1 with
  | error fault =>
    rw [hresolved] at h
    cases h
  | ok found =>
    rw [hresolved] at h
    dsimp only at h
    cases hcollection : s.collection? found with
    | none =>
      rw [hcollection] at h
      cases h
    | some other =>
      rw [hcollection] at h
      cases h
      exact ⟨rfl, Resolver.lookup_resolve hresolved, hcollection⟩

/-- The repository kept for an entity type is found for it. -/
theorem repository_of_lookup {s : Service} {entity name : String} {c : Collection}
    (hname : s.resolver.cache.lookup entity = some name) (hc : s.collection? name = some c) :
    outcome (repository entity) s = (.ok (name, c), s) := by
  rw [outcome_repository, Resolver.resolve_of_lookup hname]
  dsimp only
  rw [hc]

/-! ### The master secret -/

/-- Without a master secret, there is nothing to copy. -/
theorem outcome_masterSecret_none (scope : ScopeId) {s : Service} (h : s.master.secret = none) :
    outcome (masterSecret scope) s =
      (.error (.unavailable MasterHolder.Fault.notSet.message), s) := by
  have hcopy : (s.master.copy scope).run s.vault = (.error .notSet, s.vault) := by
    rw [MasterHolder.copy, h]
    rfl
  rw [masterSecret, outcome_bind_of_ok (outcome_get s), outcome_bind_of_ok (outcome_vault _ s),
    hcopy]
  rfl

/-- A reader of the master secret gets a new value with its text, tracked by the reader's scope. -/
theorem outcome_masterSecret_some (scope : ScopeId) {s : Service} {id : ValueId}
    (h : s.master.secret = some id) :
    outcome (masterSecret scope) s =
      (.ok s.vault.cells.size,
        s.withVault (s.vault.addTracked scope (.text (s.vault.text id)))) := by
  have hcopy : (s.master.copy scope).run s.vault =
      (.ok s.vault.cells.size, s.vault.addTracked scope (.text (s.vault.text id))) := by
    rw [MasterHolder.copy, h]
    rfl
  rw [masterSecret, outcome_bind_of_ok (outcome_get s), outcome_bind_of_ok (outcome_vault _ s),
    hcopy]
  rfl

/-! ### Collections -/

/-- Under a name that is there, a collection is put; under the other names, they stay. -/
theorem collection?_setCollection (s : Service) (name other : String) (c : Collection) :
    (s.setCollection name c).collection? other =
      (s.collection? other).map fun old => if other = name then c else old := by
  have hlookup : (s.setCollection name c).collection? other =
      (s.collections.map fun entry =>
        if entry.1 = name then (entry.1, c) else (entry.1, entry.2)).lookup other := rfl
  rw [hlookup, collection?]
  induction s.collections with
  | nil => rfl
  | cons entry rest ih =>
    obtain ⟨found, kept⟩ := entry
    have hentry : (if found = name then (found, c) else (found, kept)) =
        (found, if found = name then c else kept) := by
      split <;> rfl
    rw [List.map_cons]
    dsimp only
    -- the names are those of before, so the same entry is found
    rw [hentry, List.lookup_cons, List.lookup_cons]
    cases hfound : other == found with
    | false => exact ih
    | true =>
      rw [eq_of_beq hfound]
      rfl

/-- What is stored under an identifier is found there. -/
theorem get?_insert_self (c : Collection) (id : Uuid) (document : Stored) :
    (c.insert id document).get? id = some document := List.lookup_cons_self

/-- What is stored under other identifiers stays. -/
theorem get?_insert_of_ne (c : Collection) {id other : Uuid} (h : other ≠ id)
    (document : Stored) : (c.insert id document).get? other = c.get? other := by
  have hne : (other == id) = false := beq_false_of_ne h
  rw [Collection.get?, Collection.insert, List.lookup_cons, hne, Collection.get?]
  induction c.documents with
  | nil => rfl
  | cons entry rest ih =>
    obtain ⟨found, kept⟩ := entry
    by_cases hfound : found = id
    · -- what was stored under the identifier before is dropped, and not looked for
      have hdropped : (found != id) = false := bne_eq_false_iff_eq.2 hfound
      rw [List.filter_cons, hdropped, if_neg Bool.false_ne_true, List.lookup_cons, hfound, hne]
      exact ih
    · have hkept : (found != id) = true := bne_iff_ne.2 hfound
      rw [List.filter_cons, hkept, if_pos rfl, List.lookup_cons, List.lookup_cons]
      cases other == found with
      | false => exact ih
      | true => rfl

/-- The service with a document stored in a collection under the next identifier. -/
def stored (s : Service) (name : String) (c : Collection) (document : Stored) : Service :=
  { s.setCollection name (c.insert (s.ids s.issued) document) with issued := s.issued + 1 }

/-- A document is stored under the next identifier, if there is a collection to store it in. -/
theorem insertDocument_run (name : String) (document : Stored) (s : Service) :
    (insertDocument name document).run s =
      (s.ids s.issued,
        match s.collection? name with
        | none => s
        | some c => s.stored name c document) := by
  have hrun : (insertDocument name document).run s =
      (match s.collection? name with
        | none => return s.ids s.issued
        | some c => do
          set (s.stored name c document)
          return s.ids s.issued : ServiceM Uuid).run s := rfl
  rw [hrun]
  cases s.collection? name with
  | none => rfl
  | some c => rfl

/-! ### Digests -/

/-- The digest recorded for a stored document, if one is recorded. -/
def recordedDigest (s : Service) (payload : Json) : Option String :=
  if s.integrity then some (Document.digest payload s.threshold) else none

/-- Whether a stored document still has the digest recorded for it, as far as that is checked. -/
def isIntact (s : Service) (document : Stored) : Bool :=
  match document.digest with
  | some expected => !s.integrity || Document.digest document.payload s.threshold = expected
  | none => true

/-- Every document has a digest. -/
theorem outcome_digestOf (payload : Json) (s : Service) :
    outcome (digestOf payload) s = (.ok (Document.digest payload s.threshold), s) := by
  rw [digestOf, outcome_bind_of_ok (outcome_get s), Document.digest?_eq]
  rfl

theorem outcome_recordDigest (payload : Json) (s : Service) :
    outcome (recordDigest payload) s = (.ok (s.recordedDigest payload), s) := by
  rw [recordDigest, outcome_bind_of_ok (outcome_get s), recordedDigest]
  split
  · rw [outcome_bind_of_ok (outcome_digestOf payload s)]
    rfl
  · rfl

theorem outcome_checkDigest (document : Stored) (s : Service) :
    outcome (checkDigest document) s = (.ok (s.isIntact document), s) := by
  rw [checkDigest, outcome_bind_of_ok (outcome_get s), isIntact]
  cases document.digest with
  | none => split <;> rfl
  | some expected =>
    dsimp only
    split
    · rename_i hintegrity
      rw [outcome_bind_of_ok (outcome_digestOf _ s), hintegrity]
      rfl
    · rename_i hintegrity
      rw [Bool.eq_false_iff.2 hintegrity]
      rfl

/-- A handler is known by its outcomes. -/
theorem eq_of_outcome {x y : Handler α} (h : ∀ s, outcome x s = outcome y s) : x = y := funext h

/-- The digest that is recorded depends on the state alone. -/
theorem recordDigest_eq (payload : Json) :
    recordDigest payload = do return (← get).recordedDigest payload :=
  eq_of_outcome fun s => outcome_recordDigest payload s

theorem checkDigest_eq (document : Stored) :
    checkDigest document = do return (← get).isIntact document :=
  eq_of_outcome fun s => outcome_checkDigest document s

/-! ### Storing and fetching -/

/-- A document with the digest recorded for it is intact. -/
theorem isIntact_recordedDigest (s : Service) (payload : Json) :
    s.isIntact ⟨payload, s.recordedDigest payload⟩ := by
  rw [isIntact, recordedDigest]
  cases s.integrity with
  | true => simp
  | false => rfl

/-- The part of storing a document that needs the collection. -/
def storeIn (scope : ScopeId) (name : String) (c : Collection) (document : Json) :
    Handler Response := do
  let secret ← masterSecret scope
  let (payload, result) ← (c.sealDocument cipher scope secret document : VaultM _)
  match result with
  | .error _ => throw (.encryptionFailure "encryption failed")
  | .ok _ =>
    release secret
    let digest := (← get).recordedDigest payload
    let id ← (insertDocument name ⟨payload, digest⟩ : ServiceM Uuid)
    return .json 201 (Message.encode (StoreDocumentResponse.mk id.toText))

/-- The part of fetching a document that needs what is stored. -/
def openStored (scope : ScopeId) (c : Collection) (id : Uuid) (document : Json) :
    Handler Response := do
  let secret ← masterSecret scope
  let (payload, _) ← (c.openDocument cipher scope secret document : VaultM _)
  release secret
  return .json 200 (Message.encode (DocumentResponse.mk id.toText payload))

/-- A document is stored in the collection of its entity type, if it is an object. -/
theorem store_eq (scope : ScopeId) (entity : String) (request : StoreDocumentRequest) :
    store scope entity request = (do
      let (name, c) ← repository entity
      if request.payload.isObject then storeIn scope name c request.payload
      else throw (.badRequest "document must be a JSON object")) := by
  rw [store]
  refine congrArg (repository entity >>= ·) (funext fun found => ?_)
  simp only [recordDigest_eq, bind_assoc, pure_bind]
  -- the payload is looked at after the repository was found
  cases request.payload.isObject with
  | true => rfl
  | false => rfl

/-- A document is given out from the collection of its entity type, if it is still as stored. -/
theorem fetch_eq (scope : ScopeId) (entity given : String) :
    fetch scope entity given =
      (match Uuid.parse? given with
      | none => throw (.badRequest ("invalid document id: " ++ given))
      | some id => do
        let (_, c) ← repository entity
        match c.get? id with
        | none => throw (.notFound (entity ++ " document " ++ id.toText))
        | some document =>
          if (← get).isIntact document then openStored scope c id document.payload
          else
            (Vault.report (.digestMismatch entity) : VaultM Unit)
            throw (.integrityFailure
              (entity ++ " document " ++ id.toText ++ " was modified"))) := by
  rw [fetch]
  cases Uuid.parse? given with
  | none => rfl
  | some id =>
    refine congrArg (repository entity >>= ·) (funext fun found => ?_)
    dsimp only
    cases found.2.get? id with
    | none => rfl
    | some document =>
      dsimp only
      rw [checkDigest_eq, bind_assoc]
      refine congrArg (get >>= ·) (funext fun service => ?_)
      rw [pure_bind]
      cases service.isIntact document with
      | true => rfl
      | false => rfl

/-! ### Answers -/

/-- The answer that stands for an outcome: its result or its refusal. -/
def answerOf : Except ServiceFault Response × Service → Response × Service
  | (.ok response, t) => (response, t)
  | (.error fault, t) => (refusal fault, t)

/-- A request that can be read is answered by its handler. -/
theorem answer_ok (input : α) (handler : α → Handler Response) (s : Service) :
    (answer (.ok input) handler).run s = answerOf (outcome (handler input) s) := by
  cases houtcome : outcome (handler input) s with
  | mk result t =>
    have hrun : (handler input).run.run s = (result, t) := houtcome
    rw [answer, run_bind, hrun]
    cases result with
    | error fault => rfl
    | ok response => rfl

/-- The service with a scope begun for a request. -/
def begun (s : Service) : Service :=
  s.withVault ((Vault.retainScope s.vault.scopes.size).run (Vault.beginScope.run s.vault).2).2

/-- The service with the scope of a request brought to its end. -/
def ended (scope : ScopeId) (s : Service) : Service :=
  s.withVault ((Vault.releaseScope scope).run
    ((Vault.flush scope).run ((Vault.releaseScope scope).run s.vault).2).2).2

theorem withScope_run (work : ScopeId → ServiceM α) (s : Service) :
    (withScope work).run s =
      (((work s.vault.scopes.size).run s.begun).1,
        ((work s.vault.scopes.size).run s.begun).2.ended s.vault.scopes.size) := rfl

/-- A request is answered in a scope of its own. -/
theorem handle_run (request : Request) (s : Service) :
    (handle request).run s =
      (((respond request s.vault.scopes.size).run s.begun).1,
        ((respond request s.vault.scopes.size).run s.begun).2.ended s.vault.scopes.size) :=
  withScope_run (respond request) s

end FieldVault.Service
