import FieldVault.Proofs.Document.Sealing
import FieldVault.Proofs.Http
import FieldVault.Proofs.Service.Later

/-!
# Stored documents are given back

A service that answers a request to store a document with status 201 keeps the document under the
identifier it has given out (`store_of_found`), and as long as it does, it gives the document back
(`fetch_of_keepsDocument`). A document is kept through every request that does not draw its
identifier again (`KeepsDocument.later`). Together: whatever is requested before, in between and
afterwards, a stored document is given back as it was sent (`stored_document_given_back`).
-/

set_option autoImplicit false

namespace FieldVault.Service

open Document (Collection Sealed Stored WithinLimit openDocument_of_sealed targets)
open Http (Request Response Route)
open Wipe (ValueId)

variable {s t : Service} {key entity : String} {id : Uuid} {payload : Json}

/-! ### The state of a service -/

/-- The master secret is set to a text. -/
def HoldsMaster (s : Service) (key : String) : Prop :=
  ∃ id, s.master.secret = some id ∧ s.vault.contents? id = some (.text key)

/-- A document is kept for an entity type: where the resolver will look for it, sealed under the
master secret, and with the digest that is expected of it. -/
def KeepsDocument (s : Service) (key entity : String) (id : Uuid) (payload : Json) : Prop :=
  ∃ name c document, s.resolver.cache.lookup entity = some name ∧ s.collection? name = some c ∧
    c.get? id = some document ∧ s.isIntact document ∧
    Sealed (c.Seals cipher key) (targets c.fields payload) payload document.payload

/-- A document is kept as long as its identifier is not drawn again. -/
theorem KeepsDocument.later (h : s.KeepsDocument key entity id payload) (hlater : Later s t)
    (hid : ¬ IssuedBetween s t id) : t.KeepsDocument key entity id payload := by
  obtain ⟨name, c, document, hname, hc, hdocument, hintact, hsealed⟩ := h
  obtain ⟨d, hd, hentity, hfields⟩ := hlater.exists_collection hc
  have hseals : d.Seals cipher key = c.Seals cipher key := by
    unfold Collection.Seals Collection.fieldContext
    rw [hentity]
  refine ⟨name, d, document, hlater.cached entity name hname, hd, ?_, ?_, ?_⟩
  · rw [hlater.documents name c d id hc hd hid, hdocument]
  · unfold isIntact at hintact ⊢
    rw [hlater.integrity, hlater.threshold]
    exact hintact
  · rw [hseals, hfields]
    exact hsealed

/-- The master secret is kept by work on newer values. -/
theorem HoldsMaster.keeps {scope : ScopeId} (h : s.HoldsMaster key)
    (hkeeps : Keeps s.vault.cells.size scope s t) : t.HoldsMaster key := by
  obtain ⟨id, hid, hcontents⟩ := h
  refine ⟨id, hkeeps.later.master ▸ hid, ?_⟩
  rw [hkeeps.vault.contents? (Vault.lt_of_contents?_eq_some hcontents), hcontents]

/-- The master secret is kept through a run of requests. -/
theorem HoldsMaster.after (h : s.HoldsMaster key) (requests : List Request) :
    (after requests s).HoldsMaster key := by
  induction requests generalizing s with
  | nil => exact h
  | cons request rest ih =>
    rw [after_cons]
    exact ih (h.keeps (keeps_handle request s))

/-- A reader of the master secret gets a copy of it. -/
theorem outcome_masterSecret_of_holdsMaster (h : s.HoldsMaster key) (scope : ScopeId) :
    outcome (masterSecret scope) s =
      (.ok s.vault.cells.size, s.withVault (s.vault.addTracked scope (.text key))) := by
  obtain ⟨id, hid, hcontents⟩ := h
  rw [outcome_masterSecret_some scope hid, Vault.text_of_contents? hcontents]

/-! ### Storing -/

/-- A document within the limit is sealed and put into the collection under the next identifier. -/
theorem storeIn_spec {name : String} {c : Collection} (hc : s.collection? name = some c)
    (hkey : s.HoldsMaster key) (hlimit : WithinLimit payload) (scope : ScopeId) :
    ∃ sealed v, outcome (storeIn scope name c payload) s =
        (.ok (.json 201 (Message.encode (StoreDocumentResponse.mk (s.ids s.issued).toText))),
          (s.withVault v).stored name c ⟨sealed, s.recordedDigest sealed⟩) ∧
      Sealed (c.Seals cipher key) (targets c.fields payload) payload sealed := by
  have hcopy : (s.vault.addTracked scope (.text key)).contents? s.vault.cells.size =
      some (.text key) := Vault.contents?_addTracked_size _ _ _
  obtain ⟨sealed, after, hrun, hsealed, -, -⟩ :=
    c.exists_sealed_document cipher scope hlimit hcopy
  have hseal : outcome (liftM (c.sealDocument cipher scope s.vault.cells.size payload))
      (s.withVault (s.vault.addTracked scope (.text key))) =
        (.ok (sealed, .ok (targets c.fields payload).length), s.withVault after) := by
    rw [outcome_vault, withVault_vault, hrun]
    rfl
  refine ⟨sealed, after.letGo s.vault.cells.size, ?_, hsealed⟩
  rw [storeIn, outcome_bind_of_ok (outcome_masterSecret_of_holdsMaster hkey scope),
    outcome_bind_of_ok hseal]
  dsimp only
  rw [outcome_bind_of_ok (outcome_release _ _), outcome_bind_of_ok (outcome_get _),
    outcome_bind_of_ok (outcome_service _ _), insertDocument_run]
  simp only [withVault_vault, withVault_withVault, collection?_withVault, hc]
  rfl

/-- What is stored in the collection found for an entity type is kept for it. -/
theorem keepsDocument_stored {name : String} {c : Collection} {sealed : Json}
    (hname : s.resolver.cache.lookup entity = some name) (hc : s.collection? name = some c)
    (hsealed : Sealed (c.Seals cipher key) (targets c.fields payload) payload sealed) :
    (s.stored name c ⟨sealed, s.recordedDigest sealed⟩).KeepsDocument key entity (s.ids s.issued)
      payload := by
  refine ⟨name, c.insert (s.ids s.issued) ⟨sealed, s.recordedDigest sealed⟩, _, hname, ?_,
    get?_insert_self c _ _, isIntact_recordedDigest s sealed, hsealed⟩
  have hput := s.collection?_setCollection name name (c.insert (s.ids s.issued)
    ⟨sealed, s.recordedDigest sealed⟩)
  rw [hc, Option.map_some, if_pos rfl] at hput
  exact hput

/-- An object within the limit is stored if there is a repository for it. -/
theorem store_of_found {name : String} {c : Collection}
    (hfound : outcome (repository entity) s = (.ok (name, c), t)) (hobject : payload.isObject)
    (hkey : s.HoldsMaster key) (hlimit : WithinLimit payload) (scope : ScopeId) :
    ∃ u, outcome (store scope entity ⟨payload⟩) s =
        (.ok (.json 201 (Message.encode (StoreDocumentResponse.mk (s.ids s.issued).toText))), u) ∧
      u.KeepsDocument key entity (s.ids s.issued) payload ∧ u.issued = s.issued + 1 := by
  -- the search has only added to what the resolver remembers
  obtain ⟨ht, hname, hc⟩ := found_of_repository hfound
  have hkey' : t.HoldsMaster key := by rwa [ht]
  have hnext : t.ids t.issued = s.ids s.issued := by rw [ht]
  have hissued : t.issued = s.issued := by rw [ht]
  obtain ⟨sealed, v, hrun, hsealed⟩ := storeIn_spec hc hkey' hlimit scope
  refine ⟨(t.withVault v).stored name c ⟨sealed, t.recordedDigest sealed⟩, ?_, ?_, ?_⟩
  · rw [store_eq, outcome_bind_of_ok hfound]
    dsimp only
    rw [hobject, if_pos rfl, hrun, hnext]
  · rw [← hnext]
    exact keepsDocument_stored (s := t.withVault v) hname hc hsealed
  · rw [← hissued]
    rfl

/-- Only objects are stored, and only if there is a repository for them. -/
theorem exists_found_of_store {scope : ScopeId} {response : Response}
    (h : (outcome (store scope entity ⟨payload⟩) s).1 = .ok response) :
    ∃ name c t, outcome (repository entity) s = (.ok (name, c), t) ∧ payload.isObject := by
  rw [store_eq, outcome_bind] at h
  generalize outcome (repository entity) s = found at h ⊢
  obtain ⟨fault | ⟨name, c⟩, t⟩ := found
  · cases h
  · refine ⟨name, c, t, rfl, ?_⟩
    dsimp only at h
    split at h
    · assumption
    · cases h

/-! ### Fetching -/

/-- A document that is kept is given back. -/
theorem fetch_of_keepsDocument (h : s.KeepsDocument key entity id payload)
    (hkey : s.HoldsMaster key) {given : String} (hgiven : Uuid.parse? given = some id)
    (scope : ScopeId) :
    (outcome (fetch scope entity given) s).1 =
      .ok (.json 200 (Message.encode (DocumentResponse.mk id.toText payload))) := by
  obtain ⟨name, c, document, hname, hc, hdocument, hintact, hsealed⟩ := h
  have hcopy : (s.vault.addTracked scope (.text key)).contents? s.vault.cells.size =
      some (.text key) := Vault.contents?_addTracked_size _ _ _
  obtain ⟨after, hrun, -, -⟩ := openDocument_of_sealed scope hsealed hcopy
  have hopen : outcome (liftM (c.openDocument cipher scope s.vault.cells.size document.payload))
      (s.withVault (s.vault.addTracked scope (.text key))) =
        (.ok (payload, (targets c.fields payload).length), s.withVault after) := by
    rw [outcome_vault, withVault_vault, hrun]
    rfl
  rw [fetch_eq, hgiven]
  dsimp only
  rw [outcome_bind_of_ok (repository_of_lookup hname hc)]
  dsimp only
  rw [hdocument]
  dsimp only
  rw [outcome_bind_of_ok (outcome_get s), hintact, if_pos rfl, openStored,
    outcome_bind_of_ok (outcome_masterSecret_of_holdsMaster hkey scope), outcome_bind_of_ok hopen]
  dsimp only
  rw [outcome_bind_of_ok (outcome_release _ _)]
  rfl

/-! ### Requests for documents -/

/-- The answer to a request. -/
def answerTo (request : Request) (s : Service) : Response := ((handle request).run s).1

/-- The request asks to store a document for an entity type. -/
structure AsksToStore (request : Request) (entity : String) (payload : Json) : Prop where
  method : request.method = "POST"
  target : ∃ part, Route.ofTarget? request.target = some (.store part) ∧
    Http.decodePart? part = some entity
  body : readMessage request = .ok (StoreDocumentRequest.mk payload)

/-- The request asks for a document of an entity type, by any text that denotes its identifier. -/
structure AsksToFetch (request : Request) (entity : String) (id : Uuid) : Prop where
  method : request.method = "GET"
  target : ∃ part given text, Route.ofTarget? request.target = some (.fetch part given) ∧
    Http.decodePart? part = some entity ∧ Http.decodePart? given = some text ∧
    Uuid.parse? text = some id

theorem toText_ne_empty (id : Uuid) : id.toText ≠ "" := by
  intro h
  have hparse := id.parse?_toText
  rw [h] at hparse
  cases hparse

/-- A document is stored under the path of its collection. -/
theorem asksToStore_of_target {part : String} (hpart : Http.IsPart part.toList) (hne : part ≠ "")
    (hentity : Http.decodePart? part = some entity) {contentType : Option String} {body : Bytes}
    (hbody : readMessage ⟨"POST", "/documents/" ++ part, contentType, body⟩ =
      .ok (StoreDocumentRequest.mk payload)) :
    AsksToStore ⟨"POST", "/documents/" ++ part, contentType, body⟩ entity payload :=
  ⟨rfl, ⟨part, Route.ofTarget?_store hpart hne, hentity⟩, hbody⟩

/-- A document is asked for under the path of its collection, with the text of its identifier. -/
theorem asksToFetch_of_target {part : String} (hpart : Http.IsPart part.toList)
    (hentity : Http.decodePart? part = some entity) (id : Uuid) (contentType : Option String)
    (body : Bytes) :
    AsksToFetch ⟨"GET", "/documents/" ++ part ++ "/" ++ id.toText, contentType, body⟩ entity id :=
  ⟨rfl, part, id.toText, id.toText,
    Route.ofTarget?_fetch hpart (Http.isPart_toText id) (toText_ne_empty id), hentity,
    Http.decodePart?_toText id, id.parse?_toText⟩

theorem respond_of_full {request : Request} {route : Route}
    (htarget : Route.ofTarget? request.target = some route)
    (haccess : route.access request.method = .full) (scope : ScopeId) :
    respond request scope = dispatch scope request route := by
  rw [respond, htarget]
  dsimp only
  rw [haccess]

theorem respond_store {request : Request} (h : AsksToStore request entity payload)
    (scope : ScopeId) (s : Service) :
    (respond request scope).run s = answerOf (outcome (store scope entity ⟨payload⟩) s) := by
  obtain ⟨hmethod, ⟨part, htarget, hentity⟩, hbody⟩ := h
  have hdispatch : dispatch scope request (.store part) =
      answer (do return (← readPart part, ← readMessage request))
        fun input => store scope input.1 input.2 := rfl
  have haccess : (Route.store part).access request.method = .full := by
    rw [hmethod]
    rfl
  rw [respond_of_full htarget haccess, hdispatch, readPart, hentity, hbody]
  exact answer_ok _ _ s

theorem respond_fetch {request : Request} (h : AsksToFetch request entity id)
    (scope : ScopeId) (s : Service) :
    ∃ given, Uuid.parse? given = some id ∧
      (respond request scope).run s = answerOf (outcome (fetch scope entity given) s) := by
  obtain ⟨hmethod, part, given, text, htarget, hentity, htext, hid⟩ := h
  refine ⟨text, hid, ?_⟩
  have hdispatch : dispatch scope request (.fetch part given) =
      answer (do return (← readPart part, ← readPart given))
        fun input => fetch scope input.1 input.2 := rfl
  have haccess : (Route.fetch part given).access request.method = .full := by
    rw [hmethod]
    rfl
  rw [respond_of_full htarget haccess, hdispatch, readPart, hentity, readPart, htext]
  exact answer_ok _ _ s

/-! ### Answers to requests for documents -/

/-- No identifier is issued by work on the vault. -/
theorem KeepsDocument.withVault (h : s.KeepsDocument key entity id payload) (v : Vault) :
    (s.withVault v).KeepsDocument key entity id payload := by
  apply h.later (.withVault s v)
  rintro ⟨n, hle, hlt, -⟩
  exact Nat.not_lt_of_le hle hlt

theorem status_refusal_ne (fault : ServiceFault) : (refusal fault).status ≠ 201 := by
  have hstatus : (refusal fault).status = fault.status := rfl
  rw [hstatus]
  cases fault <;> rw [ServiceFault.status] <;> decide

/-- A document that there is a repository for is stored. -/
theorem handle_store_of_found {request : Request} (h : AsksToStore request entity payload)
    {name : String} {c : Collection}
    (hfound : outcome (repository entity) s.begun = (.ok (name, c), t)) (hobject : payload.isObject)
    (hkey : s.HoldsMaster key) (hlimit : WithinLimit payload) :
    ∃ u, (handle request).run s =
        (.json 201 (Message.encode (StoreDocumentResponse.mk (s.ids s.issued).toText)), u) ∧
      u.KeepsDocument key entity (s.ids s.issued) payload ∧ u.issued = s.issued + 1 := by
  obtain ⟨u, hrun, hkeeps, hissued⟩ :=
    store_of_found hfound hobject (hkey.keeps (keeps_begun s)) hlimit s.vault.scopes.size
  refine ⟨u.ended s.vault.scopes.size, ?_, hkeeps.withVault _, hissued⟩
  rw [handle_run, respond_store h, hrun]
  rfl

/-- A document that was stored is kept, under the identifier in the answer. -/
theorem handle_store {request : Request} (h : AsksToStore request entity payload)
    (hkey : s.HoldsMaster key) (hlimit : WithinLimit payload)
    (hstatus : (answerTo request s).status = 201) :
    ∃ u, (handle request).run s =
        (.json 201 (Message.encode (StoreDocumentResponse.mk (s.ids s.issued).toText)), u) ∧
      u.KeepsDocument key entity (s.ids s.issued) payload ∧ u.issued = s.issued + 1 := by
  rw [answerTo, handle_run, respond_store h] at hstatus
  dsimp only at hstatus
  cases houtcome : outcome (store s.vault.scopes.size entity ⟨payload⟩) s.begun with
  | mk result after =>
    rw [houtcome] at hstatus
    cases result with
    | error fault => exact absurd hstatus (status_refusal_ne fault)
    | ok response =>
      -- a repository was found, and then nothing can have failed
      obtain ⟨name, c, t, hfound, hobject⟩ :=
        exists_found_of_store (congrArg Prod.fst houtcome)
      exact handle_store_of_found h hfound hobject hkey hlimit

/-- A document that is kept is given back. -/
theorem answerTo_fetch {request : Request} (h : AsksToFetch request entity id)
    (hkeeps : s.KeepsDocument key entity id payload) (hkey : s.HoldsMaster key) :
    answerTo request s = .json 200 (Message.encode (DocumentResponse.mk id.toText payload)) := by
  obtain ⟨given, hgiven, hrespond⟩ := respond_fetch h s.vault.scopes.size s.begun
  have hbegun : s.begun.KeepsDocument key entity id payload := hkeeps.withVault _
  have hfetch := fetch_of_keepsDocument hbegun (hkey.keeps (keeps_begun s)) hgiven
    s.vault.scopes.size
  rw [answerTo, handle_run, hrespond]
  generalize outcome (fetch s.vault.scopes.size entity given) s.begun = result at hfetch ⊢
  obtain ⟨fault | response, t⟩ := result
  · cases hfetch
  · cases hfetch
    rfl

/-! ### Runs -/

/-- The identifiers drawn between two services do not repeat. -/
def DrawsDistinct (s t : Service) : Prop :=
  ∀ i j, s.issued ≤ i → i < j → j < t.issued → s.ids i ≠ s.ids j

/-- A document that was stored is given back, whatever was requested before and since: with the
master secret set and no identifier drawn twice, a store answered with status 201 names an
identifier under which every later request for the document is answered with the payload as it was
sent. -/
theorem stored_document_given_back (hkey : s.HoldsMaster key) (before : List Request)
    {post : Request} (hpost : AsksToStore post entity payload) (hlimit : WithinLimit payload)
    (hstatus : (answerTo post (after before s)).status = 201) :
    ∃ id : Uuid, answerTo post (after before s) =
        .json 201 (Message.encode (StoreDocumentResponse.mk id.toText)) ∧
      ∀ between get, AsksToFetch get entity id →
        DrawsDistinct s (after (before ++ post :: between) s) →
        answerTo get (after (before ++ post :: between) s) =
          .json 200 (Message.encode (DocumentResponse.mk id.toText payload)) := by
  have hbefore := later_after before s
  obtain ⟨u, hrun, hkeeps, hissued⟩ := handle_store hpost (hkey.after before) hlimit hstatus
  refine ⟨_, congrArg Prod.fst hrun, fun between get hget hdistinct => ?_⟩
  have hafter : after (before ++ post :: between) s = after between u := by
    rw [after_append, after_cons, hrun]
  rw [hafter] at hdistinct ⊢
  have hstored : Later (after before s) u := by
    have hlater := later_handle post (after before s)
    rwa [hrun] at hlater
  have hbetween := later_after between u
  have hkept : ¬ IssuedBetween u (after between u)
      ((after before s).ids (after before s).issued) := by
    -- it would have been drawn for the document and once more since
    rintro ⟨n, hle, hlt, hn⟩
    rw [hissued] at hle
    rw [hstored.ids, hbefore.ids] at hn
    exact hdistinct _ n hbefore.issued hle hlt hn.symm
  have hmaster : (after between u).HoldsMaster key := by
    rw [← hafter]
    exact hkey.after _
  exact answerTo_fetch hget (hkeeps.later hbetween hkept) hmaster

/-- A service with the secret `k` that seals the names of people. -/
def ofPeople : Service :=
  ⟨.ofTexts ["k"], ⟨some 0⟩, [("people", .new "Person" ["name"])], .new [("people", "Person")],
    true, 1024, fun n => BitVec.ofNat 128 n, 0⟩

/-- The request to store a person. -/
def storeAnn : Request :=
  ⟨"POST", "/documents/" ++ "Person", some "application/json",
    Bytes.ofText "\x7b\"payload\":\x7b\"name\":\"Ann\"\x7d\x7d"⟩

/-- A person is given back after the same person has been stored once more. -/
theorem ann_given_back :
    let ann : Json := .obj [("name", .str "Ann")]
    ofPeople.HoldsMaster "k" ∧ AsksToStore storeAnn "Person" ann ∧
      WithinLimit ann ∧ (answerTo storeAnn (after [] ofPeople)).status = 201 ∧
      ∃ id : Uuid,
        let get : Request := ⟨"GET", "/documents/" ++ "Person" ++ "/" ++ id.toText, none, []⟩
        AsksToFetch get "Person" id ∧
          DrawsDistinct ofPeople (after ([] ++ storeAnn :: [storeAnn]) ofPeople) ∧
          answerTo get (after ([] ++ storeAnn :: [storeAnn]) ofPeople) =
            .json 200 (Message.encode (DocumentResponse.mk id.toText ann)) := by
  intro ann
  have hkey : ofPeople.HoldsMaster "k" := ⟨0, rfl, rfl⟩
  have hpart : Http.IsPart "Person".toList := by simp [Http.IsPart]
  have hentity : Http.decodePart? "Person" = some "Person" :=
    Http.decodePart?_of_notMem (by decide)
  have hstore : AsksToStore storeAnn "Person" ann :=
    asksToStore_of_target hpart (by decide) hentity rfl
  have hlimit : WithinLimit ann :=
    Json.allTexts_obj (List.forall_mem_singleton.2 (Json.allTexts_str (by decide)))
  -- the first store finds the repository, and the second finds it again
  obtain ⟨u, hrun, hkeeps, hissued⟩ :=
    handle_store_of_found (s := ofPeople) hstore rfl rfl hkey hlimit
  have hkeyAgain : u.HoldsMaster "k" := by
    have hhandled := hkey.keeps (keeps_handle storeAnn ofPeople)
    rwa [hrun] at hhandled
  obtain ⟨name, c, document, hname, hc, -⟩ := hkeeps
  obtain ⟨w, hrunAgain, -, hissuedAgain⟩ :=
    handle_store_of_found (s := u) hstore (repository_of_lookup hname hc) rfl hkeyAgain hlimit
  have hafter : after ([] ++ storeAnn :: [storeAnn]) ofPeople = w := by
    rw [List.nil_append, after_cons, hrun, after_cons, hrunAgain]
    rfl
  have hdistinct : DrawsDistinct ofPeople w := by
    intro i j hi hij hj
    rw [hissuedAgain, hissued] at hj
    have hij' : i = 0 ∧ j = 1 := by
      have hstart : ofPeople.issued = 0 := rfl
      omega
    rw [hij'.1, hij'.2]
    decide
  have hstatus : (answerTo storeAnn (after [] ofPeople)).status = 201 := by
    rw [after, List.foldl_nil, answerTo, hrun]
    rfl
  obtain ⟨id, -, hback⟩ := stored_document_given_back hkey [] hstore hlimit hstatus
  have hget := asksToFetch_of_target hpart hentity id none []
  exact ⟨hkey, hstore, hlimit, hstatus, id, hget, hafter ▸ hdistinct,
    hback [storeAnn] _ hget (hafter ▸ hdistinct)⟩

end FieldVault.Service
