import FieldVault.Proofs.Message.RoundTrip
import FieldVault.Proofs.Service.Later
import FieldVault.Proofs.Service.Passage
import FieldVault.Proofs.Service.Reading

/-!
# Nonces of requests

A request draws nonces for the envelopes that it makes, and for nothing else: one for the envelope
in the answer to a value to encrypt, and one for each field of a document that it stores. All of
them can be read off the answer and the document that is kept (`shownBy`, `accounts_handle`). A
request that is refused draws none, and neither does one that only decrypts, hashes or looks.
-/

set_option autoImplicit false

namespace FieldVault.Service

open Document (Collection SealLog Stored WithinLimit)
open Http (Request Response Route)
open Vault (DrawLog Draws)
open Wipe (ValueId)

variable {α β : Type} {s t : Service}

/-! ### Handlers that draw nothing -/

/-- A handler draws no nonce, however it ends. -/
def DrawsNone (x : Handler α) : Prop := ∀ s, Draws [] s.vault (outcome x s).2.vault

/-- What every handler passes through draws no nonce. -/
theorem passage_draws : Passage fun s t => Draws [] s.vault t.vault where
  refl s := .refl s.vault
  trans first second := first.trans second
  resolved s _ := .refl s.vault
  undrawn _ _ h := h

/-! ### Envelopes in answers -/

/-- The envelope that an answer carries. -/
def envelopeIn? (answer : Bytes) : Option Bytes :=
  ((Message.parse answer : Except Json.Fault EncryptResponse).toOption).bind fun message =>
    Envelope.inText? message.envelope

/-- The envelope in an answer is read as it was written. -/
theorem envelopeIn?_encode {e : Envelope} (h : Gcm.tagBytes ≤ e.ciphertext.length) :
    envelopeIn? (Message.encode (EncryptResponse.mk e.toBase64)) = some e.toBytes := by
  have hparse : (Message.parse (Message.encode (EncryptResponse.mk e.toBase64)) :
      Except Json.Fault EncryptResponse) = .ok (EncryptResponse.mk e.toBase64) :=
    Message.lawful_encryptResponse.roundTrips.parse_encode _ (List.forall_mem_singleton.2 trivial)
  rw [envelopeIn?, hparse]
  exact Envelope.inText?_toBase64 h

/-! ### Handlers that show what they make -/

/-- A handler refuses without a draw, or it answers with the given status and draws nonces for the
envelopes that the answer and the service it leaves show. -/
def Shows (status : Nat) (shown : Response → Service → DrawLog) (x : Handler Response)
    (s : Service) : Prop :=
  match outcome x s with
  | (.error _, t) => Draws [] s.vault t.vault
  | (.ok response, t) => response.status = status ∧
      Draws (shown response t) s.vault t.vault ∧ ∀ entry ∈ shown response t, entry.isSome

section Shows

variable {status : Nat} {shown : Response → Service → DrawLog}

theorem shows_throw (fault : ServiceFault) : Shows status shown (throw fault) s := .refl s.vault

/-- What draws nothing may come before. -/
theorem shows_bind {x : Handler α} {f : α → Handler Response} (hx : DrawsNone x)
    (hf : ∀ a t, outcome x s = (.ok a, t) → Shows status shown (f a) t) :
    Shows status shown (x >>= f) s := by
  have hfirst := hx s
  rw [Shows, outcome_bind]
  cases hresult : outcome x s with
  | mk result t =>
    rw [hresult] at hfirst
    cases result with
    | error fault => exact hfirst
    | ok a =>
      have hrest := hf a t hresult
      rw [Shows] at hrest
      dsimp only
      generalize outcome (f a) t = result at hrest ⊢
      obtain ⟨fault | response, u⟩ := result
      · exact hfirst.trans hrest
      · exact ⟨hrest.1, hfirst.trans hrest.2.1, hrest.2.2⟩

end Shows

/-! ### Encrypting a value -/

/-- The part of encrypting a value that needs the master secret. -/
def sealValue (scope : ScopeId) (context : String) (plaintext : ValueId) : Handler Response := do
  let secret ← masterSecret scope
  let text := (← get).vault.text plaintext
  match ← (cipher.tryEncryptText scope secret context text : VaultM _) with
  | .error _ => throw (.encryptionFailure "encryption failed")
  | .ok envelope =>
    release plaintext
    release secret
    return .json 200 (Message.encode (EncryptResponse.mk envelope))

/-- The copy of the master secret stands behind the values that were there. -/
theorem contents?_of_masterSecret {scope : ScopeId} {secret id : ValueId} {contents : Contents}
    (h : outcome (masterSecret scope) s = (.ok secret, t))
    (hold : s.vault.contents? id = some contents) : t.vault.contents? id = some contents := by
  have hframed : Framed s.vault.cells.size scope (masterSecret scope) _ := framed_masterSecret
  obtain ⟨hkeeps, -⟩ := hframed s (Nat.le_refl _)
  rw [h] at hkeeps
  rw [hkeeps.vault.contents? (Vault.lt_of_contents?_eq_some hold), hold]

/-- A text that can be encrypted goes into the envelope of the answer. -/
theorem shows_sealValue (scope : ScopeId) (context : String) {plaintext : ValueId} {text : String}
    (htext : s.vault.contents? plaintext = some (.text text))
    (hlimit : (Bytes.ofText text).length ≤ Gcm.plaintextLimit) :
    Shows 200 (fun response _ => [envelopeIn? response.body]) (sealValue scope context plaintext)
      s := by
  refine shows_bind (passage_draws.along_masterSecret scope) fun secret t hcopy => ?_
  refine shows_bind passage_draws.along_get fun given u hget => ?_
  cases hget
  have hkept : t.vault.text plaintext = text :=
    Vault.text_of_contents? (contents?_of_masterSecret hcopy htext)
  rw [hkept]
  obtain ⟨e, hsealed, -, hlength⟩ := cipher.exists_sealed (t.vault.text secret) context
    (t.vault.nonces t.vault.drawn) hlimit
  have hdraw := cipher.draws_nextEnvelope scope secret context t.vault (Bytes.ofText text)
  have hseal := outcome_vault (cipher.tryEncryptText scope secret context text) t
  rw [FieldCipher.nextEnvelope, hsealed] at hdraw
  rw [FieldCipher.tryEncryptText_run, hsealed] at hseal
  have hentry : envelopeIn? (Message.encode (EncryptResponse.mk e.toBase64)) = some e.toBytes :=
    envelopeIn?_encode (by rw [hlength]; exact Nat.le_add_left _ _)
  rw [Shows, outcome_bind_of_ok hseal]
  refine ⟨rfl, ?_, ?_⟩
  · dsimp only [Response.json]
    rw [hentry]
    exact hdraw.then_none (.none_of_eq rfl rfl)
  · dsimp only [Response.json]
    rw [hentry]
    exact List.forall_mem_singleton.2 rfl

/-- A value is encrypted into the envelope of the answer. -/
theorem shows_encrypt (scope : ScopeId) {request : EncryptRequest}
    (hlimit : (Bytes.ofText request.plaintext).length ≤ Gcm.plaintextLimit) (s : Service) :
    Shows 200 (fun response _ => [envelopeIn? response.body]) (encrypt scope request) s := by
  refine shows_bind (passage_draws.along_requireContext _) fun _ t _ => ?_
  refine shows_bind (passage_draws.along_vault fun v => .none_of_eq rfl rfl)
    fun plaintext u hcreate => ?_
  refine shows_bind (passage_draws.along_vault fun v => .none_of_eq rfl rfl) fun _ w hmark => ?_
  cases hcreate
  cases hmark
  refine shows_sealValue scope request.context ?_ hlimit
  exact Vault.contents?_addTracked_size t.vault scope _

/-! ### Storing a document -/

/-- The document kept under an identifier for an entity type, with its collection. -/
def documentOf? (s : Service) (entity : String) (id : Uuid) : Option (Collection × Json) := do
  let name ← (s.resolver.resolve entity).1.toOption
  let c ← s.collection? name
  let document ← c.get? id
  return (c, document.payload)

/-- What a document that was stored tells of the nonces drawn for it. -/
def storedLog (s : Service) (entity : String) (payload : Json) (id : Uuid) : DrawLog :=
  match s.documentOf? entity id with
  | some (c, document) => c.fieldLog payload document
  | none => []

/-- The copy of the master secret is work on the vault. -/
theorem exists_withVault_of_masterSecret {scope : ScopeId} {secret : ValueId}
    (h : outcome (masterSecret scope) s = (.ok secret, t)) : ∃ v, t = s.withVault v := by
  cases hheld : s.master.secret with
  | none =>
    rw [outcome_masterSecret_none scope hheld] at h
    cases h
  | some master =>
    rw [outcome_masterSecret_some scope hheld] at h
    cases h
    exact ⟨_, rfl⟩

/-- A document that is stored in the collection found for an entity type is kept for it. -/
theorem documentOf?_stored {entity name : String} {c : Collection}
    (hname : s.resolver.cache.lookup entity = some name) (hc : s.collection? name = some c)
    (document : Stored) :
    (s.stored name c document).documentOf? entity (s.ids s.issued) =
      some (c.insert (s.ids s.issued) document, document.payload) := by
  have hresolve : ((s.stored name c document).resolver.resolve entity).1.toOption = some name := by
    have hlookup : (s.stored name c document).resolver.cache.lookup entity = some name := hname
    rw [Resolver.resolve_of_lookup hlookup]
    rfl
  have hcollection : (s.stored name c document).collection? name =
      some (c.insert (s.ids s.issued) document) := by
    have hput := s.collection?_setCollection name name (c.insert (s.ids s.issued) document)
    rw [hc, Option.map_some, if_pos rfl] at hput
    exact hput
  simp only [documentOf?, hresolve, hcollection, get?_insert_self, Option.bind_eq_bind,
    Option.bind_some, Option.pure_def]

theorem storedLog_stored {entity name : String} {c : Collection} {payload : Json}
    (hname : s.resolver.cache.lookup entity = some name) (hc : s.collection? name = some c)
    (document : Stored) :
    (s.stored name c document).storedLog entity payload (s.ids s.issued) =
      c.fieldLog payload document.payload := by
  rw [storedLog, documentOf?_stored hname hc]
  rfl

/-- The fields of a document that is stored go into envelopes. -/
theorem shows_storeIn {entity name : String} {c : Collection} {payload : Json} (scope : ScopeId)
    (hname : s.resolver.cache.lookup entity = some name) (hc : s.collection? name = some c)
    (hlimit : WithinLimit payload) :
    Shows 201 (fun _ t => t.storedLog entity payload (s.ids s.issued))
      (storeIn scope name c payload) s := by
  refine shows_bind (passage_draws.along_masterSecret scope) fun secret t hcopy => ?_
  obtain ⟨v, rfl⟩ := exists_withVault_of_masterSecret hcopy
  have hseal := outcome_vault (c.sealDocument cipher scope secret payload) (s.withVault v)
  have hlog := c.sealLog_sealDocument cipher scope secret payload v
  rw [withVault_vault] at hseal
  generalize (c.sealDocument cipher scope secret payload).run v = result at hseal hlog
  obtain ⟨⟨sealed, fault | count⟩, w⟩ := result
  · -- nothing that was sent is too long
    cases hlog.complete hlimit
  · have hdraws := hlog.draws.then_none (.none_of_eq rfl rfl : Draws [] w (w.letGo secret))
    rw [Document.failureLog, List.append_nil] at hdraws
    have hshown : ((s.withVault (w.letGo secret)).stored name c
        ⟨sealed, s.recordedDigest sealed⟩).storedLog entity payload (s.ids s.issued) =
          c.fieldLog payload sealed :=
      storedLog_stored (s := s.withVault (w.letGo secret)) hname hc _
    rw [Shows, outcome_bind_of_ok hseal]
    dsimp only
    rw [outcome_bind_of_ok (outcome_release _ _), outcome_bind_of_ok (outcome_get _),
      outcome_bind_of_ok (outcome_service _ _), insertDocument_run]
    simp only [withVault_vault, withVault_withVault, collection?_withVault, hc]
    refine ⟨rfl, ?_, ?_⟩
    · exact hshown.symm ▸ hdraws
    · exact hshown.symm ▸ hlog.envelopes

/-- The fields of a document that is stored go into envelopes. -/
theorem shows_store (scope : ScopeId) (entity : String) {payload : Json}
    (hlimit : WithinLimit payload) (s : Service) :
    Shows 201 (fun _ t => t.storedLog entity payload (s.ids s.issued))
      (store scope entity ⟨payload⟩) s := by
  rw [store_eq]
  refine shows_bind (passage_draws.along_repository entity) fun found t hfound => ?_
  obtain ⟨name, c⟩ := found
  obtain ⟨ht, hname, hc⟩ := found_of_repository hfound
  have hids : t.ids t.issued = s.ids s.issued := by rw [ht]
  dsimp only
  split
  · rw [← hids]
    exact shows_storeIn scope hname hc hlimit
  · exact shows_throw _

/-! ### Requests -/

/-- What a document tells that a request has stored under an identifier. -/
def sentLog (request : Request) (part : String) (id : Uuid) (t : Service) : DrawLog :=
  match readPart part, (readMessage request : Except Response StoreDocumentRequest) with
  | .ok entity, .ok message => t.storedLog entity message.payload id
  | _, _ => []

/-- What an answer and the service that it leaves tell of the nonces drawn for a request: the
envelope in the answer to a value to encrypt, and the fields of a document that was stored under the
identifier issued for it. -/
def shownBy (request : Request) (id : Uuid) (response : Response) (t : Service) : DrawLog :=
  match Route.ofTarget? request.target with
  | some .encrypt => if response.status = 200 then [envelopeIn? response.body] else []
  | some (.store part) => if response.status = 201 then sentLog request part id t else []
  | _ => []

/-- A refusal shows nothing. -/
theorem shownBy_of_refuses {response : Response} (h : Refuses response) (request : Request)
    (id : Uuid) (t : Service) : shownBy request id response t = [] := by
  have hne : ∀ status < 400, response.status ≠ status :=
    fun status hlt => Nat.ne_of_gt (Nat.lt_of_lt_of_le hlt h)
  unfold shownBy
  split
  · exact if_neg (hne 200 (by decide))
  · exact if_neg (hne 201 (by decide))
  · rfl

section Requests

variable {status : Nat} {shown : Response → Service → DrawLog} {read : Except Response α}
  {handler : α → Handler Response}

/-- A request is refused without a draw, or its handler shows what it makes. -/
theorem answer_cases (hread : ∀ response, read = .error response → Refuses response)
    (h : ∀ input, read = .ok input → Shows status shown (handler input) s) :
    let result := (answer read handler).run s
    (Refuses result.1 ∧ Draws [] s.vault result.2.vault) ∨
      (result.1.status = status ∧ Draws (shown result.1 result.2) s.vault result.2.vault ∧
        ∀ entry ∈ shown result.1 result.2, entry.isSome) := by
  cases read with
  | error response => exact .inl ⟨hread response rfl, .refl s.vault⟩
  | ok input =>
    have hshows := h input rfl
    rw [Shows] at hshows
    rw [answer_ok]
    generalize outcome (handler input) s = result at hshows ⊢
    obtain ⟨fault | response, t⟩ := result
    · exact .inl ⟨refuses_refusal fault, hshows⟩
    · exact .inr hshows

/-- The nonces drawn are those of the envelopes in a log. -/
def Accounts (log : DrawLog) (s t : Service) : Prop :=
  Draws log s.vault t.vault ∧ ∀ entry ∈ log, entry.isSome

theorem Accounts.none (h : Draws [] s.vault t.vault) : Accounts [] s t :=
  ⟨h, List.forall_mem_nil _⟩

/-- A log that is read off the answer with one status only accounts for a request. -/
theorem accounts_answer (hstatus : status < 400)
    (hread : ∀ response, read = .error response → Refuses response)
    (h : ∀ input, read = .ok input → Shows status shown (handler input) s) :
    let result := (answer read handler).run s
    Accounts (if result.1.status = status then shown result.1 result.2 else []) s result.2 := by
  rcases answer_cases hread h with ⟨hrefuses, hnone⟩ | ⟨hgiven, hshown⟩
  · have hne : ((answer read handler).run s).1.status ≠ status :=
      Nat.ne_of_gt (Nat.lt_of_lt_of_le hstatus hrefuses)
    dsimp only
    rw [if_neg hne]
    exact .none hnone
  · dsimp only
    rw [if_pos hgiven]
    exact hshown

end Requests

theorem accounts_encrypt (request : Request) (scope : ScopeId) (s : Service) :
    let result := (dispatch scope request .encrypt).run s
    Accounts (if result.1.status = 200 then [envelopeIn? result.1.body] else []) s result.2 :=
  accounts_answer (by decide) (fun _ h => refuses_of_readMessage h)
    fun _ hinput => shows_encrypt scope (length_plaintext_le hinput) s

/-- Two readings fail if one of them does. -/
theorem error_of_pair {x : Except Response α} {y : Except Response β} {response : Response}
    (h : (do return (← x, ← y) : Except Response (α × β)) = .error response) :
    x = .error response ∨ y = .error response := by
  cases x with
  | error fault => exact .inl (by cases h; rfl)
  | ok a =>
    cases y with
    | error fault => exact .inr (by cases h; rfl)
    | ok b => cases h

/-- Two readings succeed if both do. -/
theorem ok_of_pair {x : Except Response α} {y : Except Response β} {input : α × β}
    (h : (do return (← x, ← y) : Except Response (α × β)) = .ok input) :
    x = .ok input.1 ∧ y = .ok input.2 := by
  cases x with
  | error fault => cases h
  | ok a =>
    cases y with
    | error fault => cases h
    | ok b =>
      cases h
      exact ⟨rfl, rfl⟩

theorem accounts_store (request : Request) (scope : ScopeId) (part : String) (s : Service) :
    let result := (dispatch scope request (.store part)).run s
    Accounts (if result.1.status = 201 then sentLog request part (s.ids s.issued) result.2 else [])
      s result.2 := by
  have hshows : ∀ input : String × StoreDocumentRequest,
      (do return (← readPart part, ← readMessage request) : Except Response _) = .ok input →
      Shows 201 (fun _ t => sentLog request part (s.ids s.issued) t)
        (store scope input.1 input.2) s := by
    intro input h
    obtain ⟨hpart, hmessage⟩ := ok_of_pair h
    simp only [sentLog, hpart, hmessage]
    exact shows_store scope input.1 (withinLimit_payload hmessage) s
  refine accounts_answer (by decide) (fun response h => ?_) hshows
  exact (error_of_pair h).elim refuses_of_readPart refuses_of_readMessage

/-- The answer to a request for a route, by whatever method. -/
def routed (request : Request) (scope : ScopeId) (route : Route) : ServiceM Response := do
  match route.access request.method with
  | .refused => return .empty 405
  | .full => dispatch scope request route
  | .head => return (← dispatch scope request route).head

/-- A route that draws nothing by its own method draws nothing by any. -/
theorem accounts_none_of_dispatch {request : Request} {scope : ScopeId} {route : Route}
    (h : Draws [] s.vault ((dispatch scope request route).run s).2.vault) :
    Accounts [] s ((routed request scope route).run s).2 := by
  rw [routed]
  cases route.access request.method with
  | refused => exact .none (.refl s.vault)
  | full => exact .none h
  | head => exact .none h

/-- Whatever a request asks for, the nonces drawn for it are those it shows. -/
theorem accounts_routed (request : Request) (scope : ScopeId) {route : Route}
    (hroute : Route.ofTarget? request.target = some route) (s : Service) :
    let result := (routed request scope route).run s
    Accounts (shownBy request (s.ids s.issued) result.1 result.2) s result.2 := by
  have hrefused : Accounts [] s s := .none (.refl s.vault)
  unfold shownBy
  rw [hroute]
  cases route with
  | encrypt =>
    -- a value to encrypt is sent by one method only
    have haccess : Route.access .encrypt request.method =
        if request.method = "POST" then .full else .refused := rfl
    rw [routed, haccess]
    by_cases hmethod : request.method = "POST"
    · rw [if_pos hmethod]
      exact accounts_encrypt request scope s
    · rw [if_neg hmethod]
      exact hrefused
  | store part =>
    have haccess : Route.access (.store part) request.method =
        if request.method = "POST" then .full else .refused := rfl
    rw [routed, haccess]
    by_cases hmethod : request.method = "POST"
    · rw [if_pos hmethod]
      exact accounts_store request scope part s
    · rw [if_neg hmethod]
      exact hrefused
  | decrypt => exact accounts_none_of_dispatch (passage_draws.dispatched rfl s)
  | hash => exact accounts_none_of_dispatch (passage_draws.dispatched rfl s)
  | fetch entity id => exact accounts_none_of_dispatch (passage_draws.dispatched rfl s)
  | health => exact accounts_none_of_dispatch (passage_draws.dispatched rfl s)

theorem accounts_respond (request : Request) (scope : ScopeId) (s : Service) :
    let result := (respond request scope).run s
    Accounts (shownBy request (s.ids s.issued) result.1 result.2) s result.2 := by
  cases hroute : Route.ofTarget? request.target with
  | none =>
    rw [respond, hroute]
    unfold shownBy
    rw [hroute]
    exact .none (.refl s.vault)
  | some route =>
    have hrespond : respond request scope = routed request scope route := by
      rw [respond, hroute]
      rfl
    rw [hrespond]
    exact accounts_routed request scope hroute s

/-- The nonces drawn for a request are those that its answer and the service it leaves show. -/
theorem accounts_handle (request : Request) (s : Service) :
    let result := (handle request).run s
    Accounts (shownBy request (s.ids s.issued) result.1 result.2) s result.2 := by
  have hresponded := accounts_respond request s.vault.scopes.size s.begun
  rw [handle_run]
  generalize (respond request s.vault.scopes.size).run s.begun = result at hresponded ⊢
  obtain ⟨response, t⟩ := result
  obtain ⟨hdraws, hall⟩ := hresponded
  -- the scope of the request is begun before and ended after, without a draw
  have hbegun : Draws [] s.vault s.begun.vault := .none_of_eq rfl rfl
  have hended : Draws [] t.vault (t.ended s.vault.scopes.size).vault :=
    ((Vault.draws_releaseScope _ _).trans (Vault.draws_flush _ _)).trans
      (Vault.draws_releaseScope _ _)
  exact ⟨(hbegun.trans hdraws).then_none hended, hall⟩

end FieldVault.Service
