import FieldVault.Proofs.Service.Statuses

/-!
# What requests do to the documents

Most of what a request does is aside from the documents (`Aside`): it works on the vault, and the
resolver keeps its answers. That is all unless the request is answered with the status 201
(`aside_handle`). Then it asks to store a document, and one is put into the collection found for its
entity type, under the next identifier and with the digest to record (`storesOne_handle`).
-/

set_option autoImplicit false

namespace FieldVault.Service

open Document (Collection Stored)
open Http (Request Response Route)

variable {s t u : Service} {request : Request} {entity name : String}

/-! ### What is aside from the documents -/

/-- The service `t` comes from `s` by work on the vault, and by answers that the resolver keeps. -/
def Aside (s t : Service) : Prop :=
  ∃ v entities, t = { s with vault := v, resolver := s.resolver.afterAsked entities }

theorem Aside.refl (s : Service) : Aside s s := ⟨s.vault, [], rfl⟩

theorem Aside.trans (first : Aside s t) (second : Aside t u) : Aside s u := by
  obtain ⟨v, before, rfl⟩ := first
  obtain ⟨w, behind, rfl⟩ := second
  refine ⟨w, before ++ behind, ?_⟩
  rw [Resolver.afterAsked_append]

theorem Aside.withVault (s : Service) (v : Vault) : Aside s (s.withVault v) := ⟨v, [], rfl⟩

section Aside

variable (h : Aside s t)

include h

/-- Whatever is aside leaves the documents alone. -/
theorem Aside.collections : t.collections = s.collections := by
  obtain ⟨v, entities, rfl⟩ := h
  rfl

theorem Aside.collection? (name : String) : t.collection? name = s.collection? name := by
  obtain ⟨v, entities, rfl⟩ := h
  rfl

theorem Aside.master : t.master = s.master := by
  obtain ⟨v, entities, rfl⟩ := h
  rfl

/-- The next identifier is the same. -/
theorem Aside.next : t.ids t.issued = s.ids s.issued := by
  obtain ⟨v, entities, rfl⟩ := h
  rfl

theorem Aside.recordedDigest (payload : Json) :
    t.recordedDigest payload = s.recordedDigest payload := by
  obtain ⟨v, entities, rfl⟩ := h
  rfl

end Aside

/-- What every handler passes through is aside from the documents. -/
theorem passage_aside : Passage Aside where
  refl := .refl
  trans first second := first.trans second
  resolved s entity := ⟨s.vault, [entity], rfl⟩
  undrawn s v _ := .withVault s v

/-- Nothing is stored for a value to encrypt either. -/
theorem along_aside_encrypt (scope : ScopeId) (message : EncryptRequest) :
    Along Aside (encrypt scope message) := by
  have hvault {α : Type} (work : VaultM α) : Along Aside (liftM work : Handler α) :=
    fun s => .withVault s _
  refine passage_aside.along_bind (passage_aside.along_requireContext _) fun _ => ?_
  refine passage_aside.along_bind (hvault _) fun plaintext => ?_
  refine passage_aside.along_bind (hvault _) fun _ => ?_
  refine passage_aside.along_bind (passage_aside.along_masterSecret scope) fun secret => ?_
  refine passage_aside.along_bind passage_aside.along_get fun _ => ?_
  refine passage_aside.along_bind (hvault _) fun result => ?_
  cases result with
  | error fault => exact passage_aside.along_throw _
  | ok envelope =>
    refine passage_aside.along_bind (passage_aside.along_release plaintext) fun _ => ?_
    exact passage_aside.along_bind (passage_aside.along_release secret) fun _ =>
      passage_aside.along_pure _

/-! ### Storing -/

theorem mem_of_collection? {c : Collection} (h : s.collection? name = some c) :
    (name, c) ∈ s.collections := by
  obtain ⟨first, second, hcollections, -⟩ := List.lookup_eq_some_iff.1 h
  rw [hcollections]
  exact List.mem_append_right _ List.mem_cons_self

theorem resolve_of_found {c : Collection} (h : s.found entity = .ok (name, c)) :
    (s.resolver.resolve entity).1 = .ok name ∧ s.collection? name = some c := by
  unfold found at h
  cases hname : (s.resolver.resolve entity).1 with
  | error fault =>
    rw [hname] at h
    cases h
  | ok resolved =>
    rw [hname] at h
    dsimp only at h
    cases hc : s.collection? resolved with
    | none =>
      rw [hc] at h
      cases h
    | some kept =>
      rw [hc] at h
      cases h
      exact ⟨rfl, hc⟩

/-- A document is stored between two services: aside from that, they are alike. It goes into the
collection found for its entity type, under the next identifier and with the digest to record. -/
structure StoresOne (s : Service) (entity name : String) (c : Collection) (sealed : Json)
    (u : Service) : Prop where
  found : s.found entity = .ok (name, c)
  ready : s.master.secret ≠ none
  cached : u.resolver.cache.lookup entity = some name
  stored : ∃ t, Aside s t ∧ u = t.stored name c ⟨sealed, s.recordedDigest sealed⟩

/-- Work on the vault may follow. -/
theorem StoresOne.withVault {c : Collection} {sealed : Json}
    (h : StoresOne s entity name c sealed u) (v : Vault) :
    StoresOne s entity name c sealed (u.withVault v) := by
  obtain ⟨hfound, hready, hcached, t, haside, rfl⟩ := h
  exact ⟨hfound, hready, hcached, t.withVault v, haside.trans (.withVault t v), rfl⟩

/-- A collection is there under every name as before, but for the one that is stored in. -/
theorem StoresOne.collection?_eq {c : Collection} {sealed : Json}
    (h : StoresOne s entity name c sealed u) (other : String) :
    u.collection? other = if other = name then
      some (c.insert (s.ids s.issued) ⟨sealed, s.recordedDigest sealed⟩)
      else s.collection? other := by
  obtain ⟨hfound, -, -, t, haside, rfl⟩ := h
  have hput := t.collection?_setCollection name other
    (c.insert (t.ids t.issued) ⟨sealed, s.recordedDigest sealed⟩)
  rw [haside.collection?, haside.next] at hput
  rw [Service.stored, haside.next]
  apply hput.trans
  split
  · rename_i hother
    rw [hother, (resolve_of_found hfound).2]
    rfl
  · exact Option.map_id'

/-- What storing a document can come to. -/
inductive StoreResult (s : Service) (entity : String) :
    Except ServiceFault Response × Service → Prop
  | refused {fault : ServiceFault} {t : Service} (h : Aside s t) :
    StoreResult s entity (.error fault, t)
  | stored {name : String} {c : Collection} {sealed : Json} {u : Service}
    (h : StoresOne s entity name c sealed u) :
    StoreResult s entity
      (.ok (.json 201 (Message.encode (StoreDocumentResponse.mk (s.ids s.issued).toText))), u)

/-- With the collection found, a document is stored unless the master secret is missing or a field
is too long. -/
theorem storeResult_storeIn {c : Collection} (hfound : s.found entity = .ok (name, c))
    (haside : Aside s t) (hcached : t.resolver.cache.lookup entity = some name) (scope : ScopeId)
    (document : Json) :
    StoreResult s entity (outcome (storeIn scope name c document) t) := by
  cases hsecret : t.master.secret with
  | none =>
    have hrun : outcome (storeIn scope name c document) t =
        (.error (.unavailable MasterHolder.Fault.notSet.message), t) := by
      rw [storeIn, outcome_bind, outcome_masterSecret_none scope hsecret]
    rw [hrun]
    exact .refused haside
  | some id =>
    have hready : s.master.secret ≠ none := by
      rw [← haside.master, hsecret]
      exact Option.some_ne_none id
    have hc := haside.collection? name
    rw [(resolve_of_found hfound).2] at hc
    rw [storeIn, outcome_bind_of_ok (outcome_masterSecret_some scope hsecret),
      outcome_bind_of_ok (outcome_vault _ _)]
    generalize (c.sealDocument cipher scope t.vault.cells.size document).run _ = result
    obtain ⟨⟨sealed, fault | count⟩, v⟩ := result
    · exact .refused (haside.trans (.withVault t v))
    · dsimp only
      rw [outcome_bind_of_ok (outcome_release _ _), outcome_bind_of_ok (outcome_get _),
        outcome_bind_of_ok (outcome_service _ _), insertDocument_run]
      simp only [withVault_vault, withVault_withVault, collection?_withVault, hc]
      have hresult : StoresOne s entity name c sealed
          ((t.withVault (v.letGo t.vault.cells.size)).stored name c
            ⟨sealed, s.recordedDigest sealed⟩) :=
        ⟨hfound, hready, hcached, _, haside.trans (.withVault t _), rfl⟩
      rw [← haside.recordedDigest] at hresult
      rw [show (t.withVault (v.letGo t.vault.cells.size)).ids
        (t.withVault (v.letGo t.vault.cells.size)).issued = s.ids s.issued from haside.next]
      exact .stored hresult

theorem storeResult_store (scope : ScopeId) (entity : String) (message : StoreDocumentRequest)
    (s : Service) : StoreResult s entity (outcome (store scope entity message) s) := by
  have hasked : Aside s { s with resolver := (s.resolver.resolve entity).2 } :=
    ⟨s.vault, [entity], rfl⟩
  rw [store_eq, outcome_bind, outcome_repository_found]
  cases hfound : s.found entity with
  | error fault => exact .refused hasked
  | ok place =>
    dsimp only
    split
    · have hkept := Resolver.lookup_resolve (resolve_of_found hfound).1
      exact storeResult_storeIn hfound hasked hkept scope message.payload
    · exact .refused hasked

/-! ### Requests -/

theorem aside_dispatch {scope : ScopeId} {route : Route}
    (h : ((dispatch scope request route).run s).1.status ≠ 201) :
    Aside s ((dispatch scope request route).run s).2 := by
  cases route with
  | encrypt =>
    rw [dispatch]
    exact passage_aside.answered (along_aside_encrypt scope) s
  | store part =>
    rw [dispatch] at h ⊢
    generalize (do return (← readPart part, ← readMessage request) :
      Except Response (String × StoreDocumentRequest)) = read at h ⊢
    cases read with
    | error response => exact .refl s
    | ok input =>
      have hresult := storeResult_store scope input.1 input.2 s
      rw [answer_ok] at h ⊢
      generalize outcome (store scope input.1 input.2) s = result at h hresult ⊢
      cases hresult with
      | refused haside => exact haside
      | stored _ => exact absurd rfl h
  | decrypt => exact passage_aside.dispatched rfl s
  | hash => exact passage_aside.dispatched rfl s
  | fetch part id => exact passage_aside.dispatched rfl s
  | health => exact passage_aside.dispatched rfl s

theorem aside_respond {scope : ScopeId} (h : ((respond request scope).run s).1.status ≠ 201) :
    Aside s ((respond request scope).run s).2 := by
  rw [respond] at h ⊢
  cases htarget : Route.ofTarget? request.target with
  | none => exact .refl s
  | some route =>
    rw [htarget] at h
    dsimp only at h ⊢
    cases haccess : route.access request.method with
    | refused => exact .refl s
    | full =>
      rw [haccess] at h
      exact aside_dispatch h
    | head =>
      rw [haccess] at h
      exact aside_dispatch h

theorem aside_begun (s : Service) : Aside s s.begun := .withVault s _

theorem aside_ended (scope : ScopeId) (s : Service) : Aside s (s.ended scope) := .withVault s _

/-- A request that is not answered with the status 201 leaves every document as it is. -/
theorem aside_handle (h : (answerTo request s).status ≠ 201) :
    Aside s ((handle request).run s).2 := by
  rw [answerTo, handle_run] at h
  dsimp only at h
  rw [handle_run]
  exact ((aside_begun s).trans (aside_respond h)).trans (aside_ended _ _)

/-- Only what is stored is granted with the status 201. -/
theorem exists_store_of_verdict {asked : Asked} (h : statusOf (asked.verdict s) = 201) :
    ∃ entity message, asked = .store entity message := by
  rcases verdict_cases s asked with ⟨fault, hfirst, hverdict⟩ | ⟨-, -, -, hverdict⟩ |
      ⟨-, -, hverdict⟩
  · have hstatus := status_of_firstFault hfirst
    rw [hverdict, statusOf] at h
    omega
  · rw [hverdict] at h
    cases h
  · rw [hverdict, statusOf] at h
    cases asked with
    | store entity message => exact ⟨entity, message, rfl⟩
    | health =>
      rw [Asked.granted] at h
      split at h <;> cases h
    | encrypt message => cases h
    | decrypt message => cases h
    | hash body => cases h
    | fetch entity given => cases h

theorem decodePart?_of_readPart {part text : String} (h : readPart part = .ok text) :
    Http.decodePart? part = some text := by
  unfold readPart at h
  split at h
  · cases h
    assumption
  · cases h

/-- What asks to store is a request to store, and nothing else is. -/
theorem Asks.asksToStore {message : StoreDocumentRequest}
    (h : Asks request (.store entity message)) : AsksToStore request entity message.payload := by
  obtain ⟨route, htarget, haccess, hread⟩ := h
  cases route with
  | store part =>
    have hmethod : request.method = "POST" := by
      by_contra hother
      exact haccess (if_neg hother)
    rw [readRoute] at hread
    generalize hpair : (do return (← readPart part, ← readMessage request) :
      Except Response (String × StoreDocumentRequest)) = read at hread
    cases read with
    | error response => cases hread
    | ok input =>
      cases hread
      obtain ⟨hpart, hbody⟩ := ok_of_pair hpair
      exact ⟨hmethod, ⟨part, htarget, decodePart?_of_readPart hpart⟩, hbody⟩
  | encrypt =>
    rw [readRoute] at hread
    generalize (readMessage request : Except Response EncryptRequest) = read at hread
    cases read <;> cases hread
  | decrypt =>
    rw [readRoute] at hread
    generalize (readMessage request : Except Response DecryptRequest) = read at hread
    cases read <;> cases hread
  | hash =>
    rw [readRoute] at hread
    split at hread <;> cases hread
  | fetch part id =>
    rw [readRoute] at hread
    generalize (do return (← readPart part, ← readPart id) :
      Except Response (String × String)) = read at hread
    cases read <;> cases hread
  | health => cases hread

/-- A request to store a document that is answered with the status 201 stores one. -/
theorem storesOne_of_asksToStore {payload : Json} (hstore : AsksToStore request entity payload)
    (h : (answerTo request s).status = 201) :
    ∃ name c sealed, answerTo request s =
        .json 201 (Message.encode (StoreDocumentResponse.mk (s.ids s.issued).toText)) ∧
      StoresOne s entity name c sealed ((handle request).run s).2 := by
  have hresult := storeResult_store s.vault.scopes.size entity ⟨payload⟩ s.begun
  rw [answerTo, handle_run, respond_store hstore] at h ⊢
  generalize outcome (store s.vault.scopes.size entity ⟨payload⟩) s.begun = result at h hresult ⊢
  cases hresult with
  | refused haside => exact absurd h (status_refusal_ne _)
  | stored hone =>
    -- the scope of the request is work on the vault
    obtain ⟨hfound, hready, hcached, t, haside, hstored⟩ := hone
    have hone : StoresOne s entity _ _ _ _ :=
      ⟨hfound, hready, hcached, t, (aside_begun s).trans haside, hstored⟩
    exact ⟨_, _, _, rfl, hone.withVault _⟩

/-- A request that is answered with the status 201 asks to store a document, and stores one. -/
theorem storesOne_handle (h : (answerTo request s).status = 201) :
    ∃ entity payload name c sealed, AsksToStore request entity payload ∧
      answerTo request s =
        .json 201 (Message.encode (StoreDocumentResponse.mk (s.ids s.issued).toText)) ∧
      StoresOne s entity name c sealed ((handle request).run s).2 := by
  rcases asks_or_status_mem request s with ⟨asked, hasked⟩ | hmem
  · have hstatus := h
    rw [status_answerTo hasked] at hstatus
    obtain ⟨entity, message, rfl⟩ := exists_store_of_verdict hstatus
    obtain ⟨name, c, sealed, hanswer, hone⟩ := storesOne_of_asksToStore hasked.asksToStore h
    exact ⟨entity, message.payload, name, c, sealed, hasked.asksToStore, hanswer, hone⟩
  · rw [h] at hmem
    exact absurd hmem (by decide)

end FieldVault.Service
