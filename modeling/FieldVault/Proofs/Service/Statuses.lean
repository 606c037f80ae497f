import FieldVault.Proofs.Service.Documents
import FieldVault.Proofs.Service.Draws

/-!
# Why a request is refused

A request that can be read asks for one of six things (`Asked`). Four of them need the master
secret, and each makes some checks before: these are listed in the order in which they are made
(`Asked.checks`). The first check that refuses decides the answer; if none does, a missing master
secret is the only thing that can still be in the way (`comesTo_handler`). Hence no answer has the
status 500, and 503 is answered exactly when there is no master secret and no check has refused
(`unavailable_iff_only_secret_missing`).
-/

set_option autoImplicit false

namespace FieldVault.Service

open Document (Collection Stored WithinLimit)
open Http (Request Response Route)
open Wipe (ValueId)

variable {α β : Type} {s t : Service} {request : Request}

/-! ### What can be asked -/

/-- What is read from a request. -/
inductive Asked where
  | encrypt (message : EncryptRequest)
  | decrypt (message : DecryptRequest)
  | hash (body : Bytes)
  | store (entity : String) (message : StoreDocumentRequest)
  | fetch (entity given : String)
  | health

/-- What is read from a request for a route, or the answer if nothing can be read. -/
def readRoute (request : Request) : Route → Except Response Asked
  | .encrypt => (readMessage request).map .encrypt
  | .decrypt => (readMessage request).map .decrypt
  | .hash =>
    (if bodyLimit < request.body.length then .error (.plain 413 "the body is too long")
      else .ok request.body : Except Response Bytes).map .hash
  | .store part =>
    (do return (← readPart part, ← readMessage request)).map
      fun (entity, message) => .store entity message
  | .fetch part id =>
    (do return (← readPart part, ← readPart id)).map fun (entity, given) => .fetch entity given
  | .health => .ok .health

/-- A request can be read: it is for a route, by a method of that route, and everything that is
taken from its path and its body is there. -/
structure Asks (request : Request) (asked : Asked) : Prop where
  route : ∃ route, Route.ofTarget? request.target = some route ∧
    route.access request.method ≠ .refused ∧ readRoute request route = .ok asked

namespace Asked

/-- What answers the request. -/
def handler (scope : ScopeId) : Asked → Handler Response
  | .encrypt message => Service.encrypt scope message
  | .decrypt message => Service.decrypt scope message
  | .hash body => Service.hash body
  | .store entity message => Service.store scope entity message
  | .fetch entity given => Service.fetch scope entity given
  | .health => Service.health

/-- Whether the master secret is needed. -/
def needsMaster : Asked → Bool
  | .encrypt _ => true
  | .decrypt _ => true
  | .store _ _ => true
  | .fetch _ _ => true
  | .hash _ => false
  | .health => false

end Asked

/-! ### The checks -/

/-- A check refuses a context of white space. -/
def blankContext (context : String) : Option ServiceFault :=
  if Text.isBlank context then some (.badRequest "context must not be empty") else none

/-- The name and the collection for an entity type. -/
def found (s : Service) (entity : String) : Except ServiceFault (String × Collection) :=
  match (s.resolver.resolve entity).1 with
  | .error fault => .error (.notFound fault.message)
  | .ok name =>
    match s.collection? name with
    | some c => .ok (name, c)
    | none => .error (.notFound (Resolver.Fault.noRepository entity).message)

/-- A check refuses an entity type that no collection keeps. -/
def unknownEntity (s : Service) (entity : String) : Option ServiceFault :=
  match s.found entity with
  | .ok _ => none
  | .error fault => some fault

/-- A check refuses a payload that is no object. -/
def noObject (payload : Json) : Option ServiceFault :=
  if payload.isObject then none else some (.badRequest "document must be a JSON object")

/-- A check refuses a text that is no identifier. -/
def malformedId (given : String) : Option ServiceFault :=
  match Uuid.parse? given with
  | some _ => none
  | none => some (.badRequest ("invalid document id: " ++ given))

/-- A check refuses an identifier that nothing is stored under, where it is one. -/
def missingDocument (s : Service) (entity given : String) : Option ServiceFault :=
  match Uuid.parse? given, s.found entity with
  | some id, .ok (_, c) =>
    if (c.get? id).isSome then none else some (.notFound (entity ++ " document " ++ id.toText))
  | _, _ => none

/-- A check refuses a document that is no longer as it was stored, where there is one. -/
def modifiedDocument (s : Service) (entity given : String) : Option ServiceFault :=
  match Uuid.parse? given, s.found entity with
  | some id, .ok (_, c) =>
    if (c.get? id).all s.isIntact then none
    else some (.integrityFailure (entity ++ " document " ++ id.toText ++ " was modified"))
  | _, _ => none

namespace Asked

/-- The checks made before the master secret is needed, in order. -/
def checks (s : Service) : Asked → List (Option ServiceFault)
  | .encrypt message => [blankContext message.context]
  | .decrypt message => [blankContext message.context]
  | .store entity message => [s.unknownEntity entity, noObject message.payload]
  | .fetch entity given => [malformedId given, s.unknownEntity entity,
      s.missingDocument entity given, s.modifiedDocument entity given]
  | .hash _ => []
  | .health => []

/-- The first check that refuses. -/
def firstFault (s : Service) (asked : Asked) : Option ServiceFault := (asked.checks s).findSome? id

/-- The status of the answer if nothing is in the way. -/
def granted (s : Service) : Asked → Nat
  | .store _ _ => 201
  | .health => if s.master.isReady then 200 else 503
  | _ => 200

/-- What is left after the checks: the master secret may be missing where it is needed. -/
def afterChecks (s : Service) (asked : Asked) : Except ServiceFault Nat :=
  if asked.needsMaster ∧ s.master.secret = none then
    .error (.unavailable MasterHolder.Fault.notSet.message)
  else .ok (asked.granted s)

/-- What a request comes to: the fault of the first check that refuses, or what is left after all
checks. -/
def verdict (s : Service) (asked : Asked) : Except ServiceFault Nat :=
  match asked.firstFault s with
  | some fault => .error fault
  | none => asked.afterChecks s

end Asked

/-- A check before the rest. -/
def checked (check : Option ServiceFault) (rest : Except ServiceFault Nat) :
    Except ServiceFault Nat :=
  match check with
  | some fault => .error fault
  | none => rest

/-- The first check that refuses decides, whatever the later ones say. -/
theorem verdict_eq_foldr (s : Service) (asked : Asked) :
    asked.verdict s = (asked.checks s).foldr checked (asked.afterChecks s) := by
  rw [Asked.verdict, Asked.firstFault]
  induction asked.checks s with
  | nil => rfl
  | cons check rest ih =>
    cases check with
    | some fault => rfl
    | none => exact ih

/-- The status with which a verdict is answered. -/
def statusOf : Except ServiceFault Nat → Nat
  | .ok status => status
  | .error fault => fault.status

/-! ### Handlers and their verdicts -/

/-- A handler comes to a verdict. -/
def ComesTo (x : Handler Response) (s : Service) (verdict : Except ServiceFault Nat) : Prop :=
  (outcome x s).1.map Response.status = verdict

/-- What a handler comes to that needs the master secret and nothing else. -/
def ifReady (s : Service) (status : Nat) : Except ServiceFault Nat :=
  if s.master.secret = none then .error (.unavailable MasterHolder.Fault.notSet.message)
  else .ok status

theorem afterChecks_of_needsMaster {asked : Asked} (h : asked.needsMaster) :
    asked.afterChecks s = s.ifReady (asked.granted s) := by
  rw [Asked.afterChecks, ifReady]
  simp only [h, true_and]

section ComesTo

variable {verdict : Except ServiceFault Nat} {status : Nat} {scope : ScopeId}

theorem comesTo_throw (fault : ServiceFault) : ComesTo (throw fault) s (.error fault) := rfl

theorem comesTo_json (status : Nat) (body : Bytes) :
    ComesTo (pure (.json status body)) s (.ok status) := rfl

theorem comesTo_bind {x : Handler α} {f : α → Handler Response} {a : α}
    (h : outcome x s = (.ok a, t)) (hf : ComesTo (f a) t verdict) :
    ComesTo (x >>= f) s verdict := by
  rw [ComesTo, outcome_bind_of_ok h]
  exact hf

theorem comesTo_bind_of_error {x : Handler α} {f : α → Handler Response} {fault : ServiceFault}
    (h : outcome x s = (.error fault, t)) : ComesTo (x >>= f) s (.error fault) := by
  rw [ComesTo, outcome_bind, h]
  rfl

/-- A handler that gets a copy of the master secret goes on with a value that holds some text. -/
theorem comesTo_masterSecret {f : ValueId → Handler Response}
    (h : ∀ key, ComesTo (f s.vault.cells.size)
      (s.withVault (s.vault.addTracked scope (.text key))) (.ok status)) :
    ComesTo (masterSecret scope >>= f) s (s.ifReady status) := by
  rw [ifReady]
  cases hsecret : s.master.secret with
  | none =>
    rw [if_pos rfl]
    exact comesTo_bind_of_error (outcome_masterSecret_none scope hsecret)
  | some id =>
    rw [if_neg (Option.some_ne_none id)]
    exact comesTo_bind (outcome_masterSecret_some scope hsecret) (h _)

end ComesTo

theorem outcome_repository_found (entity : String) (s : Service) :
    outcome (repository entity) s =
      (s.found entity, { s with resolver := (s.resolver.resolve entity).2 }) := by
  rw [outcome_repository, found]
  dsimp only
  cases (s.resolver.resolve entity).1 with
  | error fault => rfl
  | ok name =>
    dsimp only
    cases s.collection? name with
    | none => rfl
    | some c => rfl

/-! ### The handlers -/

section Handlers

variable {scope : ScopeId}

/-- The check of a context before the rest. -/
theorem comesTo_requireContext {f : Unit → Handler Response} {context : String}
    {rest : Except ServiceFault Nat} (h : ComesTo (f ()) s rest) :
    ComesTo (requireContext context >>= f) s (checked (blankContext context) rest) := by
  rw [requireContext, blankContext]
  split
  · exact comesTo_bind_of_error (outcome_throw _ s)
  · exact comesTo_bind (outcome_pure _ s) h

/-- The search for a collection before the rest. -/
theorem comesTo_repository {f : String × Collection → Handler Response} {entity : String}
    {rest : Except ServiceFault Nat}
    (h : ∀ name c, s.found entity = .ok (name, c) →
      ComesTo (f (name, c)) { s with resolver := (s.resolver.resolve entity).2 } rest) :
    ComesTo (repository entity >>= f) s (checked (s.unknownEntity entity) rest) := by
  have hrun := outcome_repository_found entity s
  rw [unknownEntity]
  cases hfound : s.found entity with
  | error fault =>
    rw [hfound] at hrun
    exact comesTo_bind_of_error hrun
  | ok place =>
    rw [hfound] at hrun
    exact comesTo_bind hrun (h place.1 place.2 hfound)

/-- A text that can be encrypted is encrypted. -/
theorem comesTo_sealValue (scope : ScopeId) (context : String) {plaintext : ValueId} {text : String}
    (htext : s.vault.contents? plaintext = some (.text text))
    (hlimit : (Bytes.ofText text).length ≤ Gcm.plaintextLimit) :
    ComesTo (sealValue scope context plaintext) s (s.ifReady 200) := by
  apply comesTo_masterSecret
  intro key
  have hkept : (s.vault.addTracked scope (.text key)).text plaintext = text := by
    have hframe : Vault.Frame s.vault.cells.size scope [] s.vault
        (s.vault.addTracked scope (.text key)) := .addTracked (Nat.le_refl _) _
    have hold := hframe.contents? (Vault.lt_of_contents?_eq_some htext)
    exact Vault.text_of_contents? (hold.trans htext)
  apply comesTo_bind (outcome_get _)
  rw [withVault_vault, hkept]
  obtain ⟨e, hsealed, -, -⟩ := cipher.exists_sealed
    ((s.vault.addTracked scope (.text key)).text s.vault.cells.size) context
    ((s.vault.addTracked scope (.text key)).nonces (s.vault.addTracked scope (.text key)).drawn)
    hlimit
  have hseal := outcome_vault (cipher.tryEncryptText scope s.vault.cells.size context text)
    (s.withVault (s.vault.addTracked scope (.text key)))
  rw [withVault_vault, FieldCipher.tryEncryptText_run, hsealed] at hseal
  exact comesTo_bind hseal (comesTo_json 200 _)

theorem comesTo_encrypt {message : EncryptRequest}
    (hlimit : (Bytes.ofText message.plaintext).length ≤ Gcm.plaintextLimit) (s : Service) :
    ComesTo (encrypt scope message) s ((Asked.encrypt message).verdict s) := by
  rw [verdict_eq_foldr, afterChecks_of_needsMaster rfl]
  apply comesTo_requireContext
  apply comesTo_bind (outcome_vault _ s)
  apply comesTo_bind (outcome_vault _ _)
  refine comesTo_sealValue (s := s.withVault _) scope message.context ?_ hlimit
  exact Vault.contents?_addTracked_size s.vault scope _

theorem comesTo_decrypt (message : DecryptRequest) (s : Service) :
    ComesTo (decrypt scope message) s ((Asked.decrypt message).verdict s) := by
  rw [verdict_eq_foldr, afterChecks_of_needsMaster rfl]
  apply comesTo_requireContext
  apply comesTo_masterSecret
  intro key
  -- decryption gives a value in any case
  apply comesTo_bind (outcome_vault _ _)
  apply comesTo_bind (outcome_get _)
  apply comesTo_bind (outcome_release _ _)
  apply comesTo_bind (outcome_release _ _)
  exact comesTo_json 200 _

theorem comesTo_hash (body : Bytes) (s : Service) :
    ComesTo (hash body) s ((Asked.hash body).verdict s) := rfl

theorem comesTo_health (s : Service) : ComesTo health s (Asked.health.verdict s) := rfl

/-- An object whose texts can be encrypted is stored. -/
theorem comesTo_storeIn (name : String) (c : Collection) {payload : Json}
    (hlimit : WithinLimit payload) (s : Service) :
    ComesTo (storeIn scope name c payload) s (s.ifReady 201) := by
  apply comesTo_masterSecret
  intro key
  have hcopy : (s.vault.addTracked scope (.text key)).contents? s.vault.cells.size =
      some (.text key) := Vault.contents?_addTracked_size _ _ _
  obtain ⟨sealed, after, hrun, -, -, -⟩ := c.exists_sealed_document cipher scope hlimit hcopy
  have hseal := outcome_vault (c.sealDocument cipher scope s.vault.cells.size payload)
    (s.withVault (s.vault.addTracked scope (.text key)))
  rw [withVault_vault, hrun] at hseal
  apply comesTo_bind hseal
  apply comesTo_bind (outcome_release _ _)
  apply comesTo_bind (outcome_get _)
  exact comesTo_bind (outcome_service _ _) (comesTo_json 201 _)

theorem comesTo_store (entity : String) {message : StoreDocumentRequest}
    (hlimit : WithinLimit message.payload) (s : Service) :
    ComesTo (store scope entity message) s ((Asked.store entity message).verdict s) := by
  rw [verdict_eq_foldr, afterChecks_of_needsMaster rfl, store_eq]
  apply comesTo_repository
  intro name c _
  dsimp only
  rw [List.foldr_cons, List.foldr_nil, noObject]
  split
  · exact comesTo_storeIn name c hlimit _
  · exact comesTo_throw _

/-- A stored document is opened, whatever it is. -/
theorem comesTo_openStored (c : Collection) (id : Uuid) (document : Json) (s : Service) :
    ComesTo (openStored scope c id document) s (s.ifReady 200) := by
  apply comesTo_masterSecret
  intro key
  exact comesTo_bind (outcome_vault _ _) (comesTo_json 200 _)

theorem comesTo_fetch (entity given : String) (s : Service) :
    ComesTo (fetch scope entity given) s ((Asked.fetch entity given).verdict s) := by
  rw [verdict_eq_foldr, afterChecks_of_needsMaster rfl, fetch_eq]
  simp only [Asked.checks, List.foldr_cons, List.foldr_nil, malformedId]
  cases hid : Uuid.parse? given with
  | none => exact comesTo_throw _
  | some id =>
    apply comesTo_repository
    intro name c hfound
    simp only [missingDocument, modifiedDocument, hid, hfound]
    cases c.get? id with
    | none => exact comesTo_throw _
    | some document =>
      apply comesTo_bind (outcome_get _)
      -- the search for the collection has changed nothing that the check looks at
      have hsame : isIntact { s with resolver := (s.resolver.resolve entity).2 } document =
          s.isIntact document := rfl
      rw [hsame]
      simp only [Option.isSome_some, if_true, checked, Option.all_some]
      split
      · exact comesTo_openStored c id document.payload _
      · exact comesTo_bind (outcome_vault _ _) (comesTo_throw _)

end Handlers

/-! ### Reading -/

/-- Refused while it is read, a request is answered with one of these. -/
def readingStatuses : List Nat := [400, 413, 415, 422]

theorem status_of_readMessage {α : Type} [Message α] {response : Response}
    (h : (readMessage request : Except Response α) = .error response) :
    response.status ∈ readingStatuses := by
  unfold readMessage at h
  split at h
  · cases h
    decide
  · split at h
    · cases h
      decide
    · split at h
      · cases h
      · cases h
        decide
      · cases h
        decide

theorem status_of_readPart {part : String} {response : Response}
    (h : readPart part = .error response) : response.status ∈ readingStatuses := by
  unfold readPart at h
  split at h
  · cases h
  · cases h
    decide

/-- How a request is answered: it is refused while it is read, or answered by its handler, which
comes to the verdict. -/
inductive Answered (scope : ScopeId) (s : Service) :
    Except Response Asked → Response × Service → Prop
  | refused {response : Response} (h : response.status ∈ readingStatuses) :
    Answered scope s (.error response) (response, s)
  | handled {asked : Asked} (h : ComesTo (asked.handler scope) s (asked.verdict s)) :
    Answered scope s (.ok asked) (answerOf (outcome (asked.handler scope) s))

theorem answered_of_read {scope : ScopeId} {read : Except Response α} (ask : α → Asked)
    (hread : ∀ response, read = .error response → response.status ∈ readingStatuses)
    (hask : ∀ input, read = .ok input →
      ComesTo ((ask input).handler scope) s ((ask input).verdict s)) :
    Answered scope s (read.map ask)
      ((answer read fun input => (ask input).handler scope).run s) := by
  cases read with
  | error response => exact .refused (hread response rfl)
  | ok input =>
    rw [answer_ok]
    exact .handled (hask input rfl)

/-- Whatever is asked by the method of a route is answered in one of the two ways. -/
theorem answered_dispatch (route : Route) (request : Request) (scope : ScopeId) (s : Service) :
    Answered scope s (readRoute request route) ((dispatch scope request route).run s) := by
  cases route with
  | encrypt =>
    refine answered_of_read Asked.encrypt ?_ ?_
    · intro response h
      exact status_of_readMessage h
    · intro message h
      exact comesTo_encrypt (length_plaintext_le h) s
  | decrypt =>
    refine answered_of_read Asked.decrypt ?_ ?_
    · intro response h
      exact status_of_readMessage h
    · intro message _
      exact comesTo_decrypt message s
  | hash =>
    refine answered_of_read Asked.hash ?_ ?_
    · intro response h
      split at h
      · cases h
        decide
      · cases h
    · intro body _
      exact comesTo_hash body s
  | store part =>
    refine answered_of_read (fun (entity, message) => Asked.store entity message) ?_ ?_
    · intro response h
      exact (error_of_pair h).elim status_of_readPart status_of_readMessage
    · intro input h
      exact comesTo_store input.1 (withinLimit_payload (ok_of_pair h).2) s
  | fetch part id =>
    refine answered_of_read (fun (entity, given) => Asked.fetch entity given) ?_ ?_
    · intro response h
      exact (error_of_pair h).elim status_of_readPart status_of_readPart
    · intro input _
      exact comesTo_fetch input.1 input.2 s
  | health =>
    rw [dispatch, answer_ok]
    exact .handled (comesTo_health s)

theorem Answered.status {scope : ScopeId} {asked : Asked} {result : Response × Service}
    (h : Answered scope s (.ok asked) result) : result.1.status = statusOf (asked.verdict s) := by
  cases h with
  | handled h =>
    rw [ComesTo] at h
    rw [← h]
    generalize outcome (asked.handler scope) s = result
    obtain ⟨fault | response, t⟩ := result
    · rfl
    · rfl

/-! ### Answers -/

section Checks

variable {fault : ServiceFault} {entity given : String}

theorem status_blankContext {context : String} (h : blankContext context = some fault) :
    fault.status = 400 := by
  rw [blankContext] at h
  split at h
  · cases h
    rfl
  · cases h

theorem status_unknownEntity (h : s.unknownEntity entity = some fault) : fault.status = 404 := by
  unfold unknownEntity found at h
  cases hname : (s.resolver.resolve entity).1 with
  | error unknown =>
    rw [hname] at h
    cases h
    rfl
  | ok name =>
    rw [hname] at h
    dsimp only at h
    cases hc : s.collection? name with
    | none =>
      rw [hc] at h
      cases h
      rfl
    | some c =>
      rw [hc] at h
      cases h

theorem status_noObject {payload : Json} (h : noObject payload = some fault) :
    fault.status = 400 := by
  rw [noObject] at h
  split at h
  · cases h
  · cases h
    rfl

theorem status_malformedId (h : malformedId given = some fault) : fault.status = 400 := by
  rw [malformedId] at h
  split at h
  · cases h
  · cases h
    rfl

theorem status_missingDocument (h : s.missingDocument entity given = some fault) :
    fault.status = 404 := by
  rw [missingDocument] at h
  split at h
  · split at h
    · cases h
    · cases h
      rfl
  · cases h

theorem status_modifiedDocument (h : s.modifiedDocument entity given = some fault) :
    fault.status = 409 := by
  rw [modifiedDocument] at h
  split at h
  · split at h
    · cases h
    · cases h
      rfl
  · cases h

/-- Every check refuses with one of three statuses. -/
theorem status_of_mem_checks {asked : Asked} (h : some fault ∈ asked.checks s) :
    fault.status = 400 ∨ fault.status = 404 ∨ fault.status = 409 := by
  cases asked with
  | encrypt message => exact .inl (status_blankContext (List.mem_singleton.1 h).symm)
  | decrypt message => exact .inl (status_blankContext (List.mem_singleton.1 h).symm)
  | hash body => cases h
  | store entity message =>
    rcases List.mem_cons.1 h with hunknown | hrest
    · exact .inr (.inl (status_unknownEntity hunknown.symm))
    · exact .inl (status_noObject (List.mem_singleton.1 hrest).symm)
  | fetch entity given =>
    rcases List.mem_cons.1 h with hmalformed | hrest
    · exact .inl (status_malformedId hmalformed.symm)
    · rcases List.mem_cons.1 hrest with hunknown | hrest
      · exact .inr (.inl (status_unknownEntity hunknown.symm))
      · rcases List.mem_cons.1 hrest with hmissing | hrest
        · exact .inr (.inl (status_missingDocument hmissing.symm))
        · exact .inr (.inr (status_modifiedDocument (List.mem_singleton.1 hrest).symm))
  | health => cases h

/-- The first check that refuses is one of them. -/
theorem status_of_firstFault {asked : Asked} (h : asked.firstFault s = some fault) :
    fault.status = 400 ∨ fault.status = 404 ∨ fault.status = 409 := by
  obtain ⟨check, hmem, hcheck⟩ := List.exists_of_findSome?_eq_some h
  rw [show check = some fault from hcheck] at hmem
  exact status_of_mem_checks hmem

end Checks

/-- The answer to a request by its own method, or the head of that. -/
theorem status_respond {route : Route} (htarget : Route.ofTarget? request.target = some route)
    (haccess : route.access request.method ≠ .refused) (scope : ScopeId) (s : Service) :
    ((respond request scope).run s).1.status = ((dispatch scope request route).run s).1.status := by
  rw [respond, htarget]
  dsimp only
  cases h : route.access request.method with
  | refused => exact absurd h haccess
  | full => rfl
  | head => rfl

/-- A request that can be read is answered with the status of its verdict. -/
theorem status_answerTo {asked : Asked} (h : Asks request asked) (s : Service) :
    (answerTo request s).status = statusOf (asked.verdict s) := by
  obtain ⟨route, htarget, haccess, hread⟩ := h
  have hanswered := answered_dispatch route request s.vault.scopes.size s.begun
  rw [hread] at hanswered
  have hverdict : asked.verdict s.begun = asked.verdict s := by
    cases asked <;> rfl
  rw [answerTo, handle_run]
  dsimp only
  rw [status_respond htarget haccess, hanswered.status, hverdict]

/-- A request that cannot be read, or is for nothing the service has, is answered with one of
these. -/
def refusalStatuses : List Nat := 404 :: 405 :: readingStatuses

theorem asks_or_status_mem (request : Request) (s : Service) :
    (∃ asked, Asks request asked) ∨ (answerTo request s).status ∈ refusalStatuses := by
  cases htarget : Route.ofTarget? request.target with
  | none =>
    have hrespond (scope : ScopeId) : respond request scope = pure unknownResource := by
      rw [respond, htarget]
    have hlisted : 404 ∈ refusalStatuses := by decide
    right
    rw [answerTo, handle_run, hrespond]
    exact hlisted
  | some route =>
    by_cases haccess : route.access request.method = .refused
    · have hrespond (scope : ScopeId) : respond request scope = pure (.empty 405) := by
        rw [respond, htarget]
        dsimp only
        rw [haccess]
      have hlisted : 405 ∈ refusalStatuses := by decide
      right
      rw [answerTo, handle_run, hrespond]
      exact hlisted
    · have hanswered := answered_dispatch route request s.vault.scopes.size s.begun
      have hstatus := status_respond htarget haccess s.vault.scopes.size s.begun
      cases hread : readRoute request route with
      | ok asked => exact .inl ⟨asked, route, htarget, haccess, hread⟩
      | error response =>
        right
        rw [hread] at hanswered
        rw [answerTo, handle_run]
        dsimp only
        rw [hstatus]
        generalize (dispatch s.vault.scopes.size request route).run s.begun = result at hanswered
        cases hanswered with
        | refused h => exact List.mem_cons_of_mem _ (List.mem_cons_of_mem _ h)

/-- The handler of a request that can be read comes to its verdict in every state. -/
theorem comesTo_handler {asked : Asked} (h : Asks request asked) (scope : ScopeId) (s : Service) :
    ComesTo (asked.handler scope) s (asked.verdict s) := by
  obtain ⟨route, -, -, hread⟩ := h
  have hanswered := answered_dispatch route request scope s
  rw [hread] at hanswered
  generalize (dispatch scope request route).run s = result at hanswered
  cases hanswered with
  | handled h => exact h

/-- Once the checks are passed and the master secret is there, the answer is granted. -/
theorem verdict_cases (s : Service) (asked : Asked) :
    (∃ fault, asked.firstFault s = some fault ∧ asked.verdict s = .error fault) ∨
      (asked.firstFault s = none ∧ asked.needsMaster ∧ s.master.secret = none ∧
        asked.verdict s = .error (.unavailable MasterHolder.Fault.notSet.message)) ∨
      (asked.firstFault s = none ∧ (asked.needsMaster → s.master.secret ≠ none) ∧
        asked.verdict s = .ok (asked.granted s)) := by
  rw [Asked.verdict]
  cases hfirst : asked.firstFault s with
  | some fault => exact .inl ⟨fault, rfl, rfl⟩
  | none =>
    rw [Asked.afterChecks]
    dsimp only
    split
    · rename_i hunset
      exact .inr (.inl ⟨rfl, hunset.1, hunset.2, rfl⟩)
    · rename_i hready
      exact .inr (.inr ⟨rfl, fun hneeds hnone => hready ⟨hneeds, hnone⟩, rfl⟩)

/-- A granted answer that needed the master secret is one of two. -/
theorem granted_of_needsMaster {asked : Asked} (h : asked.needsMaster) :
    asked.granted s = 200 ∨ asked.granted s = 201 := by
  cases asked with
  | encrypt message => exact .inl rfl
  | decrypt message => exact .inl rfl
  | hash body => cases h
  | store entity message => exact .inr rfl
  | fetch entity given => exact .inl rfl
  | health => cases h

/-- Nothing is granted with the status 500, and with 503 only the missing master secret is told. -/
theorem granted_ne (asked : Asked) (s : Service) :
    asked.granted s ≠ 500 ∧ (s.master.secret ≠ none → asked.granted s ≠ 503) := by
  cases asked with
  | health =>
    rw [Asked.granted, MasterHolder.isReady]
    cases s.master.secret with
    | none => exact ⟨by decide, fun h => absurd rfl h⟩
    | some id =>
      simp only [Option.isSome_some, if_true]
      exact ⟨by decide, fun _ => by decide⟩
  | store entity message =>
    rw [Asked.granted]
    exact ⟨by decide, fun _ => by decide⟩
  | encrypt message => simp [Asked.granted]
  | decrypt message => simp [Asked.granted]
  | hash body => simp [Asked.granted]
  | fetch entity given => simp [Asked.granted]

/-- No verdict has the status 500, and none has 503 once the master secret is set. -/
theorem statusOf_verdict_ne (asked : Asked) (s : Service) :
    statusOf (asked.verdict s) ≠ 500 ∧
      (s.master.secret ≠ none → statusOf (asked.verdict s) ≠ 503) := by
  rcases verdict_cases s asked with ⟨fault, hfirst, hverdict⟩ | ⟨-, -, hunset, hverdict⟩ |
      ⟨-, -, hverdict⟩
  · rw [hverdict, statusOf]
    rcases status_of_firstFault hfirst with h | h | h
    · exact ⟨by omega, by omega⟩
    · exact ⟨by omega, by omega⟩
    · exact ⟨by omega, by omega⟩
  · rw [hverdict]
    exact ⟨by decide, fun hset => absurd hunset hset⟩
  · rw [hverdict]
    exact granted_ne asked s

/-- A verdict that needs the master secret has the status 503 exactly if that is what is missing. -/
theorem statusOf_verdict_iff {asked : Asked} (h : asked.needsMaster) :
    statusOf (asked.verdict s) = 503 ↔ s.master.secret = none ∧ asked.firstFault s = none := by
  rcases verdict_cases s asked with ⟨fault, hfirst, hverdict⟩ | ⟨hfirst, -, hunset, hverdict⟩ |
      ⟨hfirst, hset, hverdict⟩
  · have hstatus := status_of_firstFault hfirst
    rw [hverdict, statusOf, hfirst]
    constructor
    · intro h503
      omega
    · rintro ⟨-, hnone⟩
      cases hnone
  · rw [hverdict]
    exact ⟨fun _ => ⟨hunset, hfirst⟩, fun _ => rfl⟩
  · have hgranted : asked.granted s = 200 ∨ asked.granted s = 201 := granted_of_needsMaster h
    rw [hverdict, statusOf]
    constructor
    · intro h503
      omega
    · rintro ⟨hunset, -⟩
      exact absurd hunset (hset h)

/-- A handler that comes to a verdict refuses with no fault of the status 500. -/
theorem ComesTo.ne_of_status {x : Handler Response} {asked : Asked}
    (h : ComesTo x s (asked.verdict s)) {fault : ServiceFault} (hfault : fault.status = 500) :
    (outcome x s).1 ≠ .error fault := by
  intro houtcome
  rw [ComesTo, houtcome] at h
  have hstatus : statusOf (asked.verdict s) = 500 := by
    rw [← h]
    exact hfault
  exact (statusOf_verdict_ne asked s).1 hstatus

theorem isPart_person : Http.IsPart "Person".toList := by simp [Http.IsPart]

theorem decodePart?_person : Http.decodePart? "Person" = some "Person" :=
  Http.decodePart?_of_notMem (by decide)

/-- What the request to store a person asks for. -/
theorem asks_storeAnn : Asks storeAnn (.store "Person" ⟨.obj [("name", .str "Ann")]⟩) := by
  have hroute : Route.ofTarget? storeAnn.target = some (.store "Person") :=
    Route.ofTarget?_store isPart_person (by decide)
  refine ⟨.store "Person", hroute, by decide, ?_⟩
  rw [readRoute, readPart, decodePart?_person]
  rfl

/-- No request is ever answered with the status 500, and none with 503 once the master secret is
set. A request that can be read is answered as the first check says that refuses it. If none does,
one that needs the master secret is answered with 503 exactly when that is not set. No handler
refuses because of an encryption or of an inner fault. -/
theorem unavailable_iff_only_secret_missing (request : Request) (s : Service) :
    (answerTo request s).status ≠ 500 ∧
      (s.master.secret ≠ none → (answerTo request s).status ≠ 503) ∧
      ∀ asked, Asks request asked →
        (∀ fault, asked.firstFault s = some fault → (answerTo request s).status = fault.status) ∧
        (asked.needsMaster → ((answerTo request s).status = 503 ↔
          s.master.secret = none ∧ asked.firstFault s = none)) ∧
        (asked.firstFault s = none → s.master.secret ≠ none →
          (answerTo request s).status = asked.granted s) ∧
        ∀ scope text, (outcome (asked.handler scope) s).1 ≠ .error (.encryptionFailure text) ∧
          (outcome (asked.handler scope) s).1 ≠ .error (.internal text) := by
  have hstatus : (answerTo request s).status ≠ 500 ∧
      (s.master.secret ≠ none → (answerTo request s).status ≠ 503) := by
    rcases asks_or_status_mem request s with ⟨asked, hasked⟩ | hmem
    · rw [status_answerTo hasked]
      exact statusOf_verdict_ne asked s
    · constructor
      · intro h500
        rw [h500] at hmem
        exact absurd hmem (by decide)
      · intro _ h503
        rw [h503] at hmem
        exact absurd hmem (by decide)
  refine ⟨hstatus.1, hstatus.2, ?_⟩
  intro asked hasked
  rw [status_answerTo hasked]
  refine ⟨?_, statusOf_verdict_iff, ?_, ?_⟩
  · intro fault hfirst
    rw [Asked.verdict, hfirst]
    rfl
  · intro hfirst hset
    rw [Asked.verdict, hfirst]
    dsimp only
    rw [Asked.afterChecks, if_neg (fun h => hset h.2)]
    rfl
  · intro scope text
    have hcomes := comesTo_handler hasked scope s
    exact ⟨hcomes.ne_of_status rfl, hcomes.ne_of_status rfl⟩

/-- The request to store a person is granted, refused for want of the master secret, or refused
because there is no collection for it, whether or not the master secret is set. -/
theorem storeAnn_granted_or_refused :
    let asked : Asked := .store "Person" ⟨.obj [("name", .str "Ann")]⟩
    let unset : Service := { ofPeople with master := .empty }
    let vacant : Service := .new (.ofTexts []) [] true 1024 ofPeople.ids
    let unknown : ServiceFault := .notFound "no repository registered for entity type: Person"
    Asks storeAnn asked ∧ asked.needsMaster ∧
      (ofPeople.master.secret ≠ none ∧ asked.firstFault ofPeople = none ∧
        (answerTo storeAnn ofPeople).status = 201) ∧
      (unset.master.secret = none ∧ asked.firstFault unset = none ∧
        (answerTo storeAnn unset).status = 503) ∧
      (asked.firstFault vacant = some unknown ∧
        (answerTo storeAnn vacant).status = 404) := by
  intro asked unset vacant unknown
  have hasks : Asks storeAnn asked := asks_storeAnn
  have hset : ofPeople.master.secret ≠ none := Option.some_ne_none 0
  have hvacant : asked.firstFault vacant = some unknown := rfl
  obtain ⟨-, -, hanswer⟩ := unavailable_iff_only_secret_missing storeAnn ofPeople
  obtain ⟨-, -, hgranted, -⟩ := hanswer asked hasks
  obtain ⟨-, -, hanswerUnset⟩ := unavailable_iff_only_secret_missing storeAnn unset
  obtain ⟨-, hunavailable, -⟩ := hanswerUnset asked hasks
  obtain ⟨-, -, hanswerVacant⟩ := unavailable_iff_only_secret_missing storeAnn vacant
  obtain ⟨hrefused, -⟩ := hanswerVacant asked hasks
  exact ⟨hasks, rfl, ⟨hset, rfl, hgranted rfl hset⟩,
    ⟨rfl, rfl, (hunavailable rfl).2 ⟨rfl, rfl⟩⟩, hvacant, hrefused _ hvacant⟩

end FieldVault.Service
