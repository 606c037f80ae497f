import FieldVault.Proofs.Service.Storing

/-!
# The documents of a reachable service

A service is reachable if it was started without documents and has then been given its master
secret and requests, in any order. A request that stores a document is the only step that counts for
the documents, and from it follows what holds of every reachable service (`Reachable.sound`). Both
together say how documents come to be (`documents_added_by_storing`).
-/

set_option autoImplicit false

namespace FieldVault.Service

open Document (Collection Stored)
open Http (Request Response Route)
open Wipe (ValueId)

variable {β : Type} {s t u : Service} {entity name : String}

/-! ### Reachable services -/

/-- A service is reached from one without documents by setting its master secret and by requests,
with work on its vault in between that leaves the master secret alone. -/
inductive Reachable : Service → Prop
  | new (vault : Vault) {collections : List (String × Collection)}
    (hnames : (collections.map Prod.fst).Nodup)
    (hempty : ∀ entry ∈ collections, entry.2.documents = []) (integrity : Bool) (threshold : Nat)
    (ids : Nat → Uuid) : Reachable (.new vault collections integrity threshold ids)
  | setMaster {s : Service} (h : Reachable s) (secret : String) :
    Reachable ((Service.setMaster secret).run s).2
  | handle {s : Service} (h : Reachable s) (request : Request) :
    Reachable ((Service.handle request).run s).2
  | work {s : Service} (h : Reachable s) (v : Vault)
    (hsecret : ∀ id, s.master.secret = some id → v.contents? id = s.vault.contents? id) :
    Reachable (s.withVault v)

/-- A document is stored under an identifier in some collection. -/
def HoldsDocument (s : Service) (id : Uuid) (document : Stored) : Prop :=
  ∃ entry ∈ s.collections, (id, document) ∈ entry.2.documents

/-- What holds of every reachable service. -/
structure Sound (s : Service) : Prop where
  names : (s.collections.map Prod.fst).Nodup
  registry : s.resolver.registry = s.collections.map fun (name, c) => (name, c.entity)
  settled : s.resolver.Settled
  secret : ∀ id, s.master.secret = some id → ∃ text, s.vault.contents? id = some (.text text)
  ready : ∀ id document, s.HoldsDocument id document → s.master.secret ≠ none
  drawn : ∀ id document, s.HoldsDocument id document → ∃ i < s.issued, s.ids i = id
  digest : ∀ id document, s.HoldsDocument id document →
    document.digest = s.recordedDigest document.payload

/-- One collection has a name. -/
theorem Sound.eq_of_mem (h : s.Sound) {c d : Collection} (hd : (name, d) ∈ s.collections)
    (hc : s.collection? name = some c) : d = c := by
  have hsame := List.inj_on_of_nodup_map h.names hd (mem_of_collection? hc) rfl
  exact (Prod.mk.inj hsame).2

/-- The collection found for an entity type keeps documents of that type. -/
theorem Sound.entity_of_found (h : s.Sound) {c : Collection}
    (hfound : s.found entity = .ok (name, c)) : c.entity = entity := by
  obtain ⟨hname, hc⟩ := resolve_of_found hfound
  have hregistered := h.settled.mem_registry hname
  rw [h.registry, List.mem_map] at hregistered
  obtain ⟨⟨kept, d⟩, hmem, hentry⟩ := hregistered
  cases hentry
  rw [h.eq_of_mem hmem hc]

/-- The next identifier has not been drawn before. -/
def NextIsNew (s : Service) : Prop := ∀ i < s.issued, s.ids i ≠ s.ids s.issued

theorem Sound.not_holds_next (h : s.Sound) (hnew : s.NextIsNew) (document : Stored) :
    ¬ s.HoldsDocument (s.ids s.issued) document := by
  intro hholds
  obtain ⟨i, hi, hdrawn⟩ := h.drawn _ _ hholds
  exact hnew i hi hdrawn

/-! ### Steps -/

theorem sound_new (vault : Vault) {collections : List (String × Collection)}
    (hnames : (collections.map Prod.fst).Nodup)
    (hempty : ∀ entry ∈ collections, entry.2.documents = []) (integrity : Bool) (threshold : Nat)
    (ids : Nat → Uuid) : (new vault collections integrity threshold ids).Sound := by
  have hnone (id : Uuid) (document : Stored) :
      ¬ (new vault collections integrity threshold ids).HoldsDocument id document := by
    rintro ⟨entry, hentry, hdocument⟩
    rw [hempty entry hentry] at hdocument
    cases hdocument
  refine ⟨hnames, rfl, ?_, ?_, ?_, ?_, ?_⟩
  · intro entity name hkept
    cases hkept
  · intro id hid
    cases hid
  · intro id document hholds
    exact absurd hholds (hnone id document)
  · intro id document hholds
    exact absurd hholds (hnone id document)
  · intro id document hholds
    exact absurd hholds (hnone id document)

/-- The master secret is set to a new value, unless it is set already. -/
theorem setMaster_run (secret : String) (s : Service) :
    ((setMaster secret).run s).2 =
      match s.master.secret with
      | some _ => s
      | none =>
        { s with
          vault := s.vault.addCell ⟨.text secret, 1⟩
          master := ⟨some s.vault.cells.size⟩ } := by
  have hlift : (liftM (s.master.set secret) : ServiceM _).run s =
      (((s.master.set secret).run s.vault).1,
        s.withVault ((s.master.set secret).run s.vault).2) := rfl
  rw [setMaster]
  simp only [run_bind, run_get, hlift]
  rw [MasterHolder.set]
  cases s.master.secret with
  | some id => rfl
  | none => rfl

theorem Sound.setMaster (h : s.Sound) (secret : String) :
    ((setMaster secret).run s).2.Sound := by
  rw [setMaster_run]
  cases s.master.secret with
  | some id => exact h
  | none =>
    obtain ⟨hnames, hregistry, hsettled, -, -, hdrawn, hdigest⟩ := h
    refine ⟨hnames, hregistry, hsettled, ?_, ?_, hdrawn, hdigest⟩
    · intro id hid
      cases hid
      exact ⟨secret, Vault.contents?_addCell_size _ _⟩
    · intro id document _
      exact Option.some_ne_none _

/-- What is aside from the documents leaves a service sound, as long as it leaves the master secret
alone. -/
theorem Sound.aside (h : s.Sound) (haside : Aside s t)
    (hsecret : ∀ id, s.master.secret = some id → t.vault.contents? id = s.vault.contents? id) :
    t.Sound := by
  obtain ⟨hnames, hregistry, hsettled, hheld, hready, hdrawn, hdigest⟩ := h
  obtain ⟨v, entities, rfl⟩ := haside
  refine ⟨hnames, ?_, hsettled.afterAsked entities, ?_, hready, hdrawn, hdigest⟩
  · exact (s.resolver.registry_afterAsked entities).trans hregistry
  · intro id hid
    rw [hsecret id hid]
    exact hheld id hid

/-- A document that is held once another has been stored was held before, or is the one stored. -/
theorem holds_of_stored {c : Collection} (hc : s.collection? name = some c) {added : Stored}
    {id : Uuid} {document : Stored} (h : (s.stored name c added).HoldsDocument id document) :
    s.HoldsDocument id document ∨ id = s.ids s.issued ∧ document = added := by
  obtain ⟨entry, hentry, hdocument⟩ := h
  have hentries : entry ∈ s.collections.map fun (other, old) =>
      if other = name then (other, c.insert (s.ids s.issued) added) else (other, old) := hentry
  rw [List.mem_map] at hentries
  obtain ⟨⟨other, old⟩, hold, rfl⟩ := hentries
  dsimp only at hdocument
  split at hdocument
  · rcases List.mem_cons.1 hdocument with hadded | hkept
    · right
      exact ⟨(Prod.mk.inj hadded).1, (Prod.mk.inj hadded).2⟩
    · left
      exact ⟨(name, c), mem_of_collection? hc, List.mem_of_mem_filter hkept⟩
  · left
    exact ⟨(other, old), hold, hdocument⟩

/-- The collections of before stand under their names, one of them with one document more. -/
theorem map_collections_stored {c : Collection} {added : Stored} (f : String × Collection → β)
    (hf : ∀ entry ∈ s.collections, entry.1 = name →
      f (name, c.insert (s.ids s.issued) added) = f entry) :
    (s.stored name c added).collections.map f = s.collections.map f := by
  have hcollections : (s.stored name c added).collections =
      s.collections.map fun (other, old) =>
        if other = name then (other, c.insert (s.ids s.issued) added) else (other, old) := rfl
  rw [hcollections, List.map_map]
  apply List.map_congr_left
  rintro ⟨other, old⟩ hmem
  rw [Function.comp_apply]
  dsimp only
  split
  · rename_i hother
    subst hother
    exact hf _ hmem rfl
  · rfl

/-- A document stored with the digest to record leaves a service sound. -/
theorem Sound.stored (h : s.Sound) (hready : s.master.secret ≠ none) {c : Collection}
    (hc : s.collection? name = some c) (sealed : Json) :
    (s.stored name c ⟨sealed, s.recordedDigest sealed⟩).Sound := by
  refine ⟨?_, ?_, h.settled, h.secret, fun _ _ _ => hready, ?_, ?_⟩
  · rw [map_collections_stored Prod.fst]
    · exact h.names
    · intro entry _ hname
      exact hname.symm
  · apply h.registry.trans
    symm
    apply map_collections_stored
    rintro ⟨other, old⟩ hmem hother
    cases hother
    rw [h.eq_of_mem hmem hc]
    rfl
  · intro id document hholds
    rcases holds_of_stored hc hholds with hheld | ⟨hid, -⟩
    · obtain ⟨i, hi, hdrawn⟩ := h.drawn id document hheld
      exact ⟨i, Nat.lt_succ_of_lt hi, hdrawn⟩
    · exact ⟨s.issued, Nat.lt_succ_self _, hid.symm⟩
  · intro id document hholds
    rcases holds_of_stored hc hholds with hheld | ⟨-, hadded⟩
    · exact h.digest id document hheld
    · rw [hadded]
      rfl

/-- No request reaches the master secret. -/
theorem Sound.secret_handle (h : s.Sound) (request : Request) (id : ValueId)
    (hid : s.master.secret = some id) :
    ((handle request).run s).2.vault.contents? id = s.vault.contents? id := by
  obtain ⟨text, htext⟩ := h.secret id hid
  rw [contents?_handle request htext, htext]

/-- A document that is stored leaves a service sound. -/
theorem Sound.storesOne (h : s.Sound) {c : Collection} {sealed : Json}
    (hone : StoresOne s entity name c sealed u)
    (hsecret : ∀ id, s.master.secret = some id → u.vault.contents? id = s.vault.contents? id) :
    u.Sound := by
  obtain ⟨hfound, hready, -, t, haside, rfl⟩ := hone
  have hc : t.collection? name = some c := by
    rw [haside.collection?]
    exact (resolve_of_found hfound).2
  rw [← haside.master] at hready
  rw [← haside.recordedDigest]
  exact (h.aside haside hsecret).stored hready hc sealed

theorem Sound.handle (h : s.Sound) (request : Request) :
    ((handle request).run s).2.Sound := by
  have hsecret := h.secret_handle request
  by_cases hstatus : (answerTo request s).status = 201
  · obtain ⟨entity, payload, name, c, sealed, -, -, hone⟩ := storesOne_handle hstatus
    exact h.storesOne hone hsecret
  · exact h.aside (aside_handle hstatus) hsecret

/-- Every reachable service is sound. -/
theorem Reachable.sound (h : Reachable s) : s.Sound := by
  induction h with
  | new vault hnames hempty integrity threshold ids =>
    exact sound_new vault hnames hempty integrity threshold ids
  | setMaster _ secret ih => exact ih.setMaster secret
  | handle _ request ih => exact ih.handle request
  | work _ v hsecret ih => exact ih.aside (.withVault _ v) hsecret

/-! ### Documents -/

/-- A digest is recorded exactly if digests are to be recorded. -/
theorem isSome_recordedDigest (s : Service) (payload : Json) :
    (s.recordedDigest payload).isSome ↔ s.integrity := by
  rw [recordedDigest]
  cases s.integrity with
  | true => exact iff_of_true rfl rfl
  | false => exact iff_of_false Bool.false_ne_true Bool.false_ne_true

/-- What is recorded is the digest of the payload. -/
theorem digest?_of_recordedDigest {payload : Json} {digest : String}
    (h : s.recordedDigest payload = some digest) :
    Document.digest? payload s.threshold = .ok digest := by
  rw [recordedDigest] at h
  split at h
  · cases h
    exact Document.digest?_eq _ _
  · cases h

/-- Nothing is replaced under a new identifier. -/
theorem documents_insert_of_new {c : Collection} {id : Uuid}
    (h : ∀ entry ∈ c.documents, entry.1 ≠ id) (document : Stored) :
    (c.insert id document).documents = (id, document) :: c.documents := by
  have hall : ∀ entry ∈ c.documents, entry.1 != id := fun entry hmem => bne_iff_ne.2 (h entry hmem)
  rw [Collection.insert, List.filter_eq_self.2 hall]

/-- In a reachable service, the master secret is set if a document is held, and a document has a
digest exactly if digests are to be recorded: that of its stored form. A request answered with any
status but 201 leaves every collection and the master secret as they are. One answered with 201 asks
to store a document, and puts one into the collection that the resolver names for its entity type,
under the next identifier. All other documents stay, and if the identifier has not been drawn
before, nothing has been stored under it in any collection. -/
theorem documents_added_by_storing (h : Reachable s) (request : Request) :
    let t := ((handle request).run s).2
    let id := s.ids s.issued
    (∀ other document, s.HoldsDocument other document →
      s.master.secret ≠ none ∧ (document.digest.isSome ↔ s.integrity) ∧
        ∀ digest, document.digest = some digest →
          Document.digest? document.payload s.threshold = .ok digest) ∧
      (t.master = s.master ∧ ∀ secret, s.master.secret = some secret →
        t.vault.contents? secret = s.vault.contents? secret) ∧
      ((answerTo request s).status ≠ 201 → t.collections = s.collections) ∧
      ((answerTo request s).status = 201 → ∃ entity payload name c document,
        AsksToStore request entity payload ∧
          answerTo request s = .json 201 (Message.encode (StoreDocumentResponse.mk id.toText)) ∧
          (s.resolver.resolve entity).1 = .ok name ∧ s.collection? name = some c ∧
          c.entity = entity ∧ t.collection? name = some (c.insert id document) ∧
          (∀ other, other ≠ id → (c.insert id document).get? other = c.get? other) ∧
          (∀ other, other ≠ name → t.collection? other = s.collection? other) ∧
          (s.NextIsNew → (∀ document, ¬ s.HoldsDocument id document) ∧
            (c.insert id document).documents = (id, document) :: c.documents)) := by
  intro t id
  have hsound := h.sound
  refine ⟨?_, ⟨(later_handle request s).master, hsound.secret_handle request⟩, ?_, ?_⟩
  · intro other document hholds
    rw [hsound.digest other document hholds]
    exact ⟨hsound.ready other document hholds, s.isSome_recordedDigest _,
      fun _ => digest?_of_recordedDigest⟩
  · intro hstatus
    exact (aside_handle hstatus).collections
  · intro hstatus
    obtain ⟨entity, payload, name, c, sealed, hasks, hanswer, hone⟩ := storesOne_handle hstatus
    obtain ⟨hname, hc⟩ := resolve_of_found hone.found
    have hput := hone.collection?_eq
    refine ⟨entity, payload, name, c, ⟨sealed, s.recordedDigest sealed⟩, hasks, hanswer, hname, hc,
      hsound.entity_of_found hone.found, ?_, ?_, ?_, ?_⟩
    · exact (hput name).trans (if_pos rfl)
    · intro other hother
      exact get?_insert_of_ne c hother _
    · intro other hother
      exact (hput other).trans (if_neg hother)
    · intro hnew
      have hfree := hsound.not_holds_next hnew
      refine ⟨hfree, documents_insert_of_new ?_ _⟩
      rintro ⟨other, document⟩ hmem rfl
      exact hfree document ⟨(name, c), mem_of_collection? hc, hmem⟩

/-- The first person stored is the only document, and a request for nothing stores none. -/
theorem person_added :
    let nothing : Request := ⟨"GET", "/nothing", none, []⟩
    Reachable ofPeople ∧ ofPeople.NextIsNew ∧ (answerTo storeAnn ofPeople).status = 201 ∧
      (answerTo nothing ofPeople).status ≠ 201 ∧
      (∃ c document, ((handle storeAnn).run ofPeople).2.collection? "people" = some c ∧
        c.documents = [(ofPeople.ids 0, document)]) ∧
      ((handle nothing).run ofPeople).2.collections = ofPeople.collections := by
  intro nothing
  have hreach : Reachable ofPeople := by
    have hstart : Reachable (.new (.ofTexts []) [("people", .new "Person" ["name"])] true 1024
        ofPeople.ids) := by
      apply Reachable.new
      · exact List.nodup_singleton "people"
      · exact List.forall_mem_singleton.2 rfl
    have hset := hstart.setMaster "k"
    rw [setMaster_run] at hset
    exact hset
  have hnew : ofPeople.NextIsNew := fun i hi => absurd hi (Nat.not_lt_zero i)
  have hstatus : (answerTo storeAnn ofPeople).status = 201 := by
    rw [status_answerTo asks_storeAnn]
    rfl
  have hother : (answerTo nothing ofPeople).status ≠ 201 := by
    have hnone : Route.ofTarget? nothing.target = none := by decide
    have hrespond (scope : ScopeId) : respond nothing scope = pure unknownResource := by
      rw [respond, hnone]
    rw [answerTo, handle_run, hrespond]
    exact Nat.ne_of_beq_eq_false rfl
  obtain ⟨-, -, -, hcreated⟩ := documents_added_by_storing hreach storeAnn
  obtain ⟨-, -, hunchanged, -⟩ := documents_added_by_storing hreach nothing
  obtain ⟨entity, payload, name, c, document, -, -, -, hc, -, hput, -, -, hfree⟩ := hcreated hstatus
  have hname : (name, c) ∈ [("people", Collection.new "Person" ["name"])] := mem_of_collection? hc
  cases List.mem_singleton.1 hname
  exact ⟨hreach, hnew, hstatus, hother, ⟨_, document, hput, (hfree hnew).2⟩, hunchanged hother⟩

end FieldVault.Service
