import FieldVault.Proofs.Json.Unique
import FieldVault.Proofs.Lifecycle
import FieldVault.Proofs.Service.Storing

/-!
# A changed document is noticed

A document is stored with the digest of its stored form. If its payload is replaced later and the
digest is not, a request for the document finds that out before anything is decrypted
(`modified_payload_detected`): no two payloads have the same compact form, so only two texts with
the same SHA-512 hash could hide the change.
-/

set_option autoImplicit false

namespace FieldVault.Service

open Document (Collection Stored digest_eq_iff)
open Http (Request Response Route)
open Json (AllWhole)

variable {s t u : Service} {entity name : String} {id : Uuid} {document : Stored}
  {request : Request}

/-! ### Documents that are stored -/

/-- A document is stored for an entity type, under the name where the resolver will look for it. -/
def StoresAt (s : Service) (entity name : String) (id : Uuid) (document : Stored) : Prop :=
  s.resolver.cache.lookup entity = some name ∧
    ∃ c, s.collection? name = some c ∧ c.get? id = some document

/-- What has just been stored is there. -/
theorem StoresOne.storesAt {c : Collection} {sealed : Json}
    (h : StoresOne s entity name c sealed u) :
    u.StoresAt entity name (s.ids s.issued) ⟨sealed, s.recordedDigest sealed⟩ :=
  ⟨h.cached, _, (h.collection?_eq name).trans (if_pos rfl), get?_insert_self c _ _⟩

/-- One identifier is drawn for a document that is stored. -/
theorem StoresOne.issued_eq {c : Collection} {sealed : Json}
    (h : StoresOne s entity name c sealed u) : u.issued = s.issued + 1 := by
  obtain ⟨-, -, -, t, ⟨v, entities, rfl⟩, rfl⟩ := h
  rfl

/-- What is stored stays unless its identifier is drawn again. -/
theorem StoresAt.later (h : s.StoresAt entity name id document) (hlater : Later s t)
    (hid : ¬ IssuedBetween s t id) : t.StoresAt entity name id document := by
  obtain ⟨hname, c, hc, hdocument⟩ := h
  obtain ⟨d, hd, -, -⟩ := hlater.exists_collection hc
  refine ⟨hlater.cached entity name hname, d, hd, ?_⟩
  rw [hlater.documents name c d id hc hd hid, hdocument]

/-- The collection that is found for the entity type has the document. -/
theorem StoresAt.found (h : s.StoresAt entity name id document) :
    ∃ c, s.found entity = .ok (name, c) ∧ c.get? id = some document := by
  obtain ⟨hname, c, hc, hdocument⟩ := h
  refine ⟨c, ?_, hdocument⟩
  rw [Service.found, Resolver.resolve_of_lookup hname]
  dsimp only
  rw [hc]

/-! ### A payload in another's place -/

/-- The service with another payload for a stored document, and the digest recorded for it kept. -/
def replacePayload (s : Service) (name : String) (id : Uuid) (given : Json) : Service :=
  match s.collection? name with
  | none => s
  | some c =>
    match c.get? id with
    | none => s
    | some document => s.setCollection name (c.insert id { document with payload := given })

/-- The two services have the same settings and have issued the same identifiers. -/
structure SameSettings (s t : Service) : Prop where
  master : t.master = s.master
  integrity : t.integrity = s.integrity
  threshold : t.threshold = s.threshold
  ids : t.ids = s.ids
  issued : t.issued = s.issued

theorem sameSettings_replacePayload (s : Service) (name : String) (id : Uuid) (given : Json) :
    SameSettings s (s.replacePayload name id given) := by
  rw [replacePayload]
  split
  · exact ⟨rfl, rfl, rfl, rfl, rfl⟩
  · split
    · exact ⟨rfl, rfl, rfl, rfl, rfl⟩
    · exact ⟨rfl, rfl, rfl, rfl, rfl⟩

theorem StoresAt.replacePayload (h : s.StoresAt entity name id document) (given : Json) :
    (s.replacePayload name id given).StoresAt entity name id ⟨given, document.digest⟩ := by
  obtain ⟨hname, c, hc, hdocument⟩ := h
  have hput := s.collection?_setCollection name name (c.insert id ⟨given, document.digest⟩)
  rw [hc, Option.map_some, if_pos rfl] at hput
  rw [Service.replacePayload, hc]
  dsimp only
  rw [hdocument]
  exact ⟨hname, _, hput, get?_insert_self c id _⟩

/-! ### Requests for a document -/

theorem AsksToFetch.asks (h : AsksToFetch request entity id) :
    ∃ given, Uuid.parse? given = some id ∧ Asks request (.fetch entity given) := by
  obtain ⟨hmethod, part, given, text, htarget, hentity, htext, hid⟩ := h
  refine ⟨text, hid, .fetch part given, htarget, ?_, ?_⟩
  · have haccess : (Route.fetch part given).access "GET" = .full := rfl
    rw [hmethod, haccess]
    decide
  · rw [readRoute, readPart, hentity, readPart, htext]
    rfl

/-- A document that is intact is given out once the master secret is set. -/
theorem status_of_intact (hget : AsksToFetch request entity id)
    (h : s.StoresAt entity name id document) (hintact : s.isIntact document)
    (hready : s.master.secret ≠ none) : (answerTo request s).status = 200 := by
  obtain ⟨given, hgiven, hasks⟩ := hget.asks
  obtain ⟨c, hfound, hdocument⟩ := h.found
  have hchecks : (Asked.fetch entity given).firstFault s = none := by
    rw [Asked.firstFault, Asked.checks, malformedId, unknownEntity, missingDocument,
      modifiedDocument, hgiven, hfound]
    dsimp only
    rw [hdocument, Option.all_some, hintact]
    rfl
  rw [status_answerTo hasks, Asked.verdict, hchecks]
  dsimp only
  rw [Asked.afterChecks, if_neg fun hunset => hready hunset.2]
  rfl

/-- A document that is not intact is reported and refused by the handler, which does nothing
else. -/
theorem outcome_fetch_modified (h : s.StoresAt entity name id document)
    (hmodified : s.isIntact document = false) {given : String}
    (hgiven : Uuid.parse? given = some id) (scope : ScopeId) :
    outcome (fetch scope entity given) s =
      (.error (.integrityFailure (entity ++ " document " ++ id.toText ++ " was modified")),
        s.withVault (s.vault.addEvent (.digestMismatch entity))) := by
  obtain ⟨hname, c, hc, hdocument⟩ := h
  rw [fetch_eq, hgiven]
  dsimp only
  rw [outcome_bind_of_ok (repository_of_lookup hname hc)]
  dsimp only
  rw [hdocument]
  dsimp only
  rw [outcome_bind_of_ok (outcome_get s), hmodified, if_neg Bool.false_ne_true,
    outcome_bind_of_ok (outcome_vault _ s)]
  rfl

/-- The end of a scope that tracks nothing changes no value and is not reported. -/
theorem vault_ended {scope : ScopeId} (h : s.vault.members scope = []) :
    (s.ended scope).vault.cells = s.vault.cells ∧
      (s.ended scope).vault.events = s.vault.events ∧
      (s.ended scope).vault.drawn = s.vault.drawn := by
  have hended : (s.ended scope).vault = (s.vault.scopeReleased scope).discharged scope := rfl
  have hnone : (s.vault.scopeLowered scope).members scope = [] := by
    rw [Vault.members_scopeLowered, h]
  rw [hended, scopeReleased_of_members h, discharged_eq, Vault.flushed, hnone]
  exact ⟨rfl, rfl, rfl⟩

/-- A changed document is noticed: the request for it is refused with the status 409 and a text that
tells nothing of the payload. That is reported once; no value is made, as for a copy of the master
secret or a field that is decrypted, no value is changed, and no nonce is drawn. -/
structure Noticed (request : Request) (entity : String) (id : Uuid) (s : Service) : Prop where
  answer : answerTo request s = .json 409 (Message.encode (ServiceFault.response
    (.integrityFailure (entity ++ " document " ++ id.toText ++ " was modified"))))
  events : ((handle request).run s).2.vault.events = s.vault.events ++ [.digestMismatch entity]
  cells : ((handle request).run s).2.vault.cells = s.vault.cells
  drawn : ((handle request).run s).2.vault.drawn = s.vault.drawn

theorem noticed_of_modified (hget : AsksToFetch request entity id)
    (h : s.StoresAt entity name id document) (hmodified : s.isIntact document = false) :
    Noticed request entity id s := by
  obtain ⟨given, hgiven, hrespond⟩ := respond_fetch hget s.vault.scopes.size s.begun
  have hbegun : s.begun.StoresAt entity name id document := h
  have houtcome := outcome_fetch_modified hbegun hmodified hgiven s.vault.scopes.size
  have hrun : (handle request).run s =
      (refusal (.integrityFailure (entity ++ " document " ++ id.toText ++ " was modified")),
        (s.begun.withVault (s.begun.vault.addEvent (.digestMismatch entity))).ended
          s.vault.scopes.size) := by
    rw [handle_run, hrespond, houtcome]
    rfl
  -- the scope of the request is new, and nothing was put into it
  have hmembers : (s.begun.vault.addEvent (.digestMismatch entity)).members
      s.vault.scopes.size = [] := by
    have hscope : (s.begun.vault.addEvent (.digestMismatch entity)).members s.vault.scopes.size =
        (s.vault.scopeBegun.scopeRetained s.vault.scopes.size).members s.vault.scopes.size := rfl
    rw [hscope, Vault.members_scopeRetained, Vault.members_scopeBegun,
      Vault.members_of_size_le (Nat.le_refl _)]
  obtain ⟨hcells, hevents, hdrawn⟩ := vault_ended
    (s := s.begun.withVault (s.begun.vault.addEvent (.digestMismatch entity))) hmembers
  refine ⟨?_, ?_, ?_, ?_⟩
  · rw [answerTo, hrun]
    rfl
  · rw [hrun]
    exact hevents
  · rw [hrun]
    exact hcells
  · rw [hrun]
    exact hdrawn

/-! ### Along a run -/

/-- A stored document with another payload is intact exactly if the compact forms have the same
hash. -/
theorem isIntact_iff {sealed given : Json} (hintegrity : s.integrity) :
    s.isIntact ⟨given, some (Document.digest sealed s.threshold)⟩ ↔
      Sha2.sha512 given.encode = Sha2.sha512 sealed.encode := by
  rw [isIntact]
  simp only [hintegrity, Bool.not_true, Bool.false_or, decide_eq_true_iff]
  exact digest_eq_iff

/-- An identifier that has been drawn is not drawn again, if the draws are distinct. -/
theorem not_issuedBetween_of_drawsDistinct (hids : t.ids = s.ids) (hdistinct : DrawsDistinct s u)
    (hstart : s.issued < t.issued) {w : Service} (hend : w.issued ≤ u.issued) :
    ¬ IssuedBetween t w (s.ids s.issued) := by
  rintro ⟨n, hle, hlt, hn⟩
  rw [hids] at hn
  exact hdistinct s.issued n (Nat.le_refl _) (Nat.lt_of_lt_of_le hstart hle)
    (Nat.lt_of_lt_of_le hlt hend) hn.symm

/-- A document is stored with its digest, and later its payload is replaced while the digest is
kept. As long as no identifier is drawn twice, the document is given out if the payload is the one
that was stored. If it is another one, its compact form is another one too, and the change is
noticed unless both compact forms have the same SHA-512 hash. -/
theorem modified_payload_detected (hintegrity : s.integrity) {payload : Json} {post : Request}
    (hpost : AsksToStore post entity payload) (hstatus : (answerTo post s).status = 201) :
    let id := s.ids s.issued
    ∃ (name : String) (sealed : Json) (digest : String),
      answerTo post s = .json 201 (Message.encode (StoreDocumentResponse.mk id.toText)) ∧
        ((handle post).run s).2.StoresAt entity name id ⟨sealed, some digest⟩ ∧
        ∀ between since given get,
          let t := after since
            ((after between ((handle post).run s).2).replacePayload name id given)
          AsksToFetch get entity id → DrawsDistinct s t → AllWhole sealed → AllWhole given →
            t.StoresAt entity name id ⟨given, some digest⟩ ∧
              (given = sealed → (answerTo get t).status = 200) ∧
              (given ≠ sealed → given.encode ≠ sealed.encode ∧
                (Sha2.sha512 given.encode ≠ Sha2.sha512 sealed.encode →
                  Noticed get entity id t)) := by
  intro id
  obtain ⟨name, c, sealed, hanswer, hone⟩ := storesOne_of_asksToStore hpost hstatus
  have hstored := hone.storesAt
  have hrecorded : s.recordedDigest sealed = some (Document.digest sealed s.threshold) := by
    rw [recordedDigest, hintegrity, if_pos rfl]
  rw [hrecorded] at hstored
  refine ⟨name, sealed, _, hanswer, hstored, ?_⟩
  intro between since given get t hget hdistinct hsealed hgiven
  -- the settings of the service stay as they are, and its identifiers are drawn one by one
  have hpost := later_handle post s
  have hbetween := later_after between ((handle post).run s).2
  have hkept := sameSettings_replacePayload (after between ((handle post).run s).2) name
    id given
  have hsince : Later _ t := later_after since _
  have hafter := hpost.trans hbetween
  have hdrawn : s.issued < ((handle post).run s).2.issued := by
    rw [hone.issued_eq]
    exact Nat.lt_succ_self _
  have hsame : (after between ((handle post).run s).2).issued ≤ t.issued := by
    rw [← hkept.issued]
    exact hsince.issued
  have hthere : t.StoresAt entity name id
      ⟨given, some (Document.digest sealed s.threshold)⟩ := by
    have hbefore := hstored.later hbetween
      (not_issuedBetween_of_drawsDistinct hpost.ids hdistinct hdrawn hsame)
    refine (hbefore.replacePayload given).later hsince ?_
    refine not_issuedBetween_of_drawsDistinct (hkept.ids.trans hafter.ids) hdistinct ?_
      (Nat.le_refl _)
    rw [hkept.issued]
    exact Nat.lt_of_lt_of_le hdrawn hbetween.issued
  have hready : t.master.secret ≠ none := by
    rw [hsince.master, hkept.master, hafter.master]
    exact hone.ready
  have hintact : t.isIntact ⟨given, some (Document.digest sealed s.threshold)⟩ ↔
      Sha2.sha512 given.encode = Sha2.sha512 sealed.encode := by
    have hthreshold : t.threshold = s.threshold :=
      hsince.threshold.trans (hkept.threshold.trans hafter.threshold)
    rw [← hthreshold]
    apply isIntact_iff
    rw [hsince.integrity, hkept.integrity, hafter.integrity, hintegrity]
  refine ⟨hthere, ?_, ?_⟩
  · rintro rfl
    exact status_of_intact hget hthere (hintact.2 rfl) hready
  · intro hchanged
    refine ⟨fun hsame => hchanged (Json.encode_injective hgiven hsealed hsame), ?_⟩
    intro hhashes
    exact noticed_of_modified hget hthere (Bool.eq_false_iff.2 fun h => hhashes (hintact.1 h))

/-- A document that is kept is stored where the resolver will look for it. -/
theorem KeepsDocument.sealed {key : String} {payload sealed : Json} {digest : Option String}
    (h : s.KeepsDocument key entity id payload)
    (hstored : s.StoresAt entity name id ⟨sealed, digest⟩) :
    ∃ c, s.collection? name = some c ∧
      Document.Sealed (c.Seals cipher key) (Document.targets c.fields payload) payload sealed := by
  obtain ⟨kept, c, document, hkept, hc, hdocument, -, hsealed⟩ := h
  obtain ⟨hname, d, hd, hfound⟩ := hstored
  rw [hkept] at hname
  cases hname
  rw [hc] at hd
  cases hd
  rw [hdocument] at hfound
  cases hfound
  exact ⟨c, hc, hsealed⟩

/-- A person who is renamed where she is stored in clear is not given out any more. -/
theorem renamed_person_detected :
    let payload : Json := .obj [("name", .str "Ann")]
    let eve : Json := .obj [("name", .str "Eve")]
    let plain : Service := { ofPeople with collections := [("people", .new "Person" [])] }
    plain.integrity ∧ AsksToStore storeAnn "Person" payload ∧
      (answerTo storeAnn plain).status = 201 ∧ AllWhole payload ∧ AllWhole eve ∧ eve ≠ payload ∧
      Sha2.sha512 eve.encode ≠ Sha2.sha512 payload.encode ∧
      ∃ id name,
        let stored := after [] ((handle storeAnn).run plain).2
        let kept := after [] (stored.replacePayload name id payload)
        let changed := after [] (stored.replacePayload name id eve)
        let get : Request := ⟨"GET", "/documents/" ++ "Person" ++ "/" ++ id.toText, none, []⟩
        AsksToFetch get "Person" id ∧ DrawsDistinct plain kept ∧ DrawsDistinct plain changed ∧
          (answerTo get kept).status = 200 ∧ Noticed get "Person" id changed := by
  intro payload eve plain
  have hkey : plain.HoldsMaster "k" := ⟨0, rfl, rfl⟩
  have hstore : AsksToStore storeAnn "Person" payload := asks_storeAnn.asksToStore
  have hstatus : (answerTo storeAnn plain).status = 201 := by
    rw [status_answerTo asks_storeAnn]
    rfl
  have hwhole (name : String) : AllWhole (.obj [("name", .str name)]) :=
    .obj (List.forall_mem_singleton.2 (.str name))
  have hlimit : Document.WithinLimit payload :=
    Json.allTexts_obj (List.forall_mem_singleton.2 (Json.allTexts_str (by decide)))
  have hne : eve ≠ payload := by simp [eve, payload]
  have hhashes : Sha2.sha512 eve.encode ≠ Sha2.sha512 payload.encode := by decide +kernel
  obtain ⟨name, sealed, digest, -, hstored, hdetected⟩ :=
    modified_payload_detected (s := plain) rfl hstore hstatus
  -- nothing is to be sealed, so the person is stored as she is
  obtain ⟨u, hrun, hkeeps, hissued⟩ :=
    handle_store_of_found (s := plain) hstore rfl rfl hkey hlimit
  have hsealed : sealed = payload := by
    have hlater := later_handle storeAnn plain
    rw [hrun] at hstored hlater
    obtain ⟨c, hc, hsealed⟩ := hkeeps.sealed hstored
    have hdeclared := hlater.declared name
    rw [declared_of_collection? hc, declared] at hdeclared
    obtain ⟨d, hd, hsame⟩ := Option.map_eq_some_iff.1 hdeclared.symm
    cases List.mem_singleton.1 (mem_of_collection? hd : (name, d) ∈ plain.collections)
    rw [← (Prod.mk.inj hsame).2] at hsealed
    cases hsealed
    rfl
  subst hsealed
  have hget := asksToFetch_of_target isPart_person decodePart?_person (plain.ids plain.issued)
    none []
  have hdistinct (given : Json) : DrawsDistinct plain
      (after [] ((after [] ((handle storeAnn).run plain).2).replacePayload name
        (plain.ids plain.issued) given)) := by
    have hnil (s : Service) : after [] s = s := rfl
    intro i j _ hij hj
    rw [hnil, hnil, (sameSettings_replacePayload _ _ _ _).issued, hrun, hissued] at hj
    have hstart : plain.issued = 0 := rfl
    omega
  obtain ⟨-, hsame, -⟩ := hdetected [] [] payload _ hget (hdistinct payload) (hwhole _) (hwhole _)
  obtain ⟨-, -, hchanged⟩ := hdetected [] [] eve _ hget (hdistinct eve) (hwhole _) (hwhole _)
  exact ⟨rfl, hstore, hstatus, hwhole _, hwhole _, hne, hhashes, plain.ids plain.issued, name, hget,
    hdistinct payload, hdistinct eve, hsame rfl, (hchanged hne).2 hhashes⟩

end FieldVault.Service
