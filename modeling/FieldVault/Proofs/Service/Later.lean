import FieldVault.Proofs.Document.Frame
import FieldVault.Proofs.Service.Run
import FieldVault.Proofs.Vault.Flush

/-!
# What requests leave of a service

A request changes a service in few ways: an answer of the resolver is kept, and a document is put
under a new identifier. `Later s t` says that no more than this has happened between `s` and `t`.
A handler also works on the vault, in the scope of the request and on values of its own
(`Framed`); each handler is built from steps that do so, whatever the request says and however it is
answered. Hence a whole request leads to a later service and leaves every value alone that was there
before it (`later_handle`, `contents?_handle`), and so does a run of requests (`later_after`).
-/

set_option autoImplicit false

namespace FieldVault.Service

open Document (Collection PathSet Stored)
open Http (Request Response Route)
open Vault (Frame)
open Wipe (ValueId)

variable {α β : Type}

/-! ### Later services -/

/-- The entity type and the encrypted fields of the collection under a name. -/
def declared (s : Service) (name : String) : Option (String × PathSet) :=
  (s.collection? name).map fun c => (c.entity, c.fields)

/-- An identifier was issued between two services. -/
def IssuedBetween (s t : Service) (id : Uuid) : Prop :=
  ∃ n, s.issued ≤ n ∧ n < t.issued ∧ s.ids n = id

/-- The service `t` keeps what `s` has settled: its configuration, the answers of its resolver, and
every document, unless its identifier was issued again. -/
structure Later (s t : Service) : Prop where
  master : t.master = s.master
  integrity : t.integrity = s.integrity
  threshold : t.threshold = s.threshold
  ids : t.ids = s.ids
  issued : s.issued ≤ t.issued
  cached : ∀ entity name, s.resolver.cache.lookup entity = some name →
    t.resolver.cache.lookup entity = some name
  declared : ∀ name, t.declared name = s.declared name
  documents : ∀ name c d id, s.collection? name = some c → t.collection? name = some d →
    ¬ IssuedBetween s t id → d.get? id = c.get? id

theorem declared_of_collection? {s : Service} {name : String} {c : Collection}
    (h : s.collection? name = some c) : s.declared name = some (c.entity, c.fields) := by
  rw [declared, h]
  rfl

namespace Later

variable {s t u : Service}

theorem refl (s : Service) : Later s s := by
  refine ⟨rfl, rfl, rfl, rfl, Nat.le_refl _, fun _ _ h => h, fun _ => rfl, ?_⟩
  intro name c d id hc hd _
  rw [Option.some.inj (hd.symm.trans hc)]

/-- A later service has a collection with the same entity type and fields under each name. -/
theorem exists_collection (h : Later s t) {name : String} {c : Collection}
    (hc : s.collection? name = some c) :
    ∃ d, t.collection? name = some d ∧ d.entity = c.entity ∧ d.fields = c.fields := by
  have hdeclared := (h.declared name).trans (declared_of_collection? hc)
  rw [Service.declared, Option.map_eq_some_iff] at hdeclared
  obtain ⟨d, hd, hsame⟩ := hdeclared
  exact ⟨d, hd, (Prod.mk.inj hsame).1, (Prod.mk.inj hsame).2⟩

theorem trans (first : Later s t) (second : Later t u) : Later s u := by
  refine ⟨second.master.trans first.master, second.integrity.trans first.integrity,
    second.threshold.trans first.threshold, second.ids.trans first.ids,
    Nat.le_trans first.issued second.issued,
    fun entity name h => second.cached entity name (first.cached entity name h),
    fun name => (second.declared name).trans (first.declared name), ?_⟩
  intro name c e id hc he hid
  obtain ⟨d, hd, -, -⟩ := first.exists_collection hc
  -- an identifier issued in either part is issued in the whole
  have hfirst : ¬ IssuedBetween s t id := by
    rintro ⟨n, hle, hlt, hn⟩
    exact hid ⟨n, hle, Nat.lt_of_lt_of_le hlt second.issued, hn⟩
  have hsecond : ¬ IssuedBetween t u id := by
    rintro ⟨n, hle, hlt, hn⟩
    exact hid ⟨n, Nat.le_trans first.issued hle, hlt, first.ids ▸ hn⟩
  rw [second.documents name d e id hd he hsecond, first.documents name c d id hc hd hfirst]

/-- Work on the vault is not seen. -/
theorem withVault (s : Service) (v : Vault) : Later s (s.withVault v) := by
  obtain ⟨hmaster, hintegrity, hthreshold, hids, hissued, hcached, hdeclared, hdocuments⟩ := refl s
  exact ⟨hmaster, hintegrity, hthreshold, hids, hissued, hcached, hdeclared, hdocuments⟩

/-- An answer of the resolver is kept beside the others. -/
theorem resolve (s : Service) (entity : String) :
    Later s { s with resolver := (s.resolver.resolve entity).2 } := by
  refine ⟨rfl, rfl, rfl, rfl, Nat.le_refl _, ?_, fun _ => rfl, (refl s).documents⟩
  intro other name hname
  exact Resolver.lookup_resolve_of_lookup hname entity

/-- A document stored under a new identifier is put beside the others. -/
theorem insertDocument (s : Service) (name : String) (document : Stored) :
    Later s ((insertDocument name document).run s).2 := by
  rw [insertDocument_run]
  cases hold : s.collection? name with
  | none => exact refl s
  | some old =>
    dsimp only
    have hfound := s.collection?_setCollection name
    refine ⟨rfl, rfl, rfl, rfl, Nat.le_succ _, fun _ _ h => h, fun other => ?_, ?_⟩
    · have hdeclared := congrArg (Option.map fun c => (c.entity, c.fields))
        (hfound other (old.insert (s.ids s.issued) document))
      apply hdeclared.trans
      rw [Option.map_map, Service.declared]
      by_cases hother : other = name
      · rw [hother, hold]
        simp only [Option.map_some, Function.comp_apply, if_true]
        rfl
      · simp only [Function.comp_def, if_neg hother]
    · -- in the collection that has changed, the new identifier is the only one that counts
      intro other c d id hc hd hid
      have hd' := (hfound other (old.insert (s.ids s.issued) document)).symm.trans hd
      rw [hc, Option.map_some] at hd'
      rw [← Option.some.inj hd']
      split
      · rename_i hother
        rw [hother, hold] at hc
        have hne : id ≠ s.ids s.issued :=
          fun heq => hid ⟨s.issued, Nat.le_refl _, Nat.lt_succ_self _, heq.symm⟩
        rw [← Option.some.inj hc, get?_insert_of_ne old hne]
      · rfl

end Later

/-! ### Framed handlers -/

/-- The service `t` comes from `s` by work of a request in its scope on values from `base` on. -/
structure Keeps (base : Nat) (scope : ScopeId) (s t : Service) : Prop where
  vault : Frame base scope [] s.vault t.vault
  later : Later s t

theorem Keeps.refl {base : Nat} {scope : ScopeId} {s : Service} (h : base ≤ s.vault.cells.size) :
    Keeps base scope s s :=
  ⟨Frame.refl h, .refl s⟩

theorem Keeps.trans {base : Nat} {scope : ScopeId} {s t u : Service} (first : Keeps base scope s t)
    (second : Keeps base scope t u) : Keeps base scope s u :=
  ⟨first.vault.trans second.vault, first.later.trans second.later⟩

/-- A handler only works in its scope and on values of its own, however it ends, and gives a good
result if it gives one. -/
def Framed (base : Nat) (scope : ScopeId) (x : Handler α) (good : α → Prop) : Prop :=
  ∀ s, base ≤ s.vault.cells.size →
    Keeps base scope s (outcome x s).2 ∧ ∀ a, (outcome x s).1 = .ok a → good a

section Framed

variable {base : Nat} {scope : ScopeId} {good : α → Prop} {final : β → Prop}

theorem framed_pure {a : α} (h : good a) : Framed base scope (pure a) good := by
  intro s hsize
  refine ⟨.refl hsize, fun b hb => ?_⟩
  rw [outcome_pure] at hb
  cases hb
  exact h

theorem framed_throw (fault : ServiceFault) :
    Framed base scope (throw fault : Handler α) good := by
  intro s hsize
  refine ⟨.refl hsize, fun a ha => ?_⟩
  rw [outcome_throw] at ha
  cases ha

theorem framed_bind {x : Handler α} {f : α → Handler β} (hx : Framed base scope x good)
    (hf : ∀ a, good a → Framed base scope (f a) final) : Framed base scope (x >>= f) final := by
  intro s hsize
  obtain ⟨hkeeps, hgood⟩ := hx s hsize
  rw [outcome_bind]
  generalize outcome x s = result at hkeeps hgood ⊢
  obtain ⟨fault | a, t⟩ := result
  · exact ⟨hkeeps, fun _ h => nomatch h⟩
  · -- the rest starts with as many values at least
    obtain ⟨hrest, hfinal⟩ := hf a (hgood a rfl) t hkeeps.vault.size
    exact ⟨hkeeps.trans hrest, hfinal⟩

theorem framed_get : Framed base scope get fun _ => True := by
  intro s hsize
  exact ⟨.refl hsize, fun _ _ => trivial⟩

/-- Framed work on the vault makes a framed handler. -/
theorem framed_vault {work : VaultM α}
    (h : ∀ v, base ≤ v.cells.size → Frame base scope [] v (work.run v).2 ∧ good (work.run v).1) :
    Framed base scope (liftM work) good := by
  intro s hsize
  obtain ⟨hframe, hgood⟩ := h s.vault hsize
  rw [outcome_vault]
  refine ⟨⟨hframe, .withVault s _⟩, fun a ha => ?_⟩
  cases ha
  exact hgood

theorem framed_release {id : ValueId} (hid : base ≤ id) :
    Framed base scope (liftM (release id)) fun _ => True := by
  intro s hsize
  rw [outcome_release]
  exact ⟨⟨Frame.letGo hsize hid, .withVault s _⟩, fun _ _ => trivial⟩

theorem framed_insertDocument (name : String) (document : Stored) :
    Framed base scope (liftM (insertDocument name document)) fun _ => True := by
  intro s hsize
  rw [outcome_service]
  refine ⟨⟨?_, .insertDocument s name document⟩, fun _ _ => trivial⟩
  rw [insertDocument_run]
  cases s.collection? name with
  | none => exact Frame.refl hsize
  | some c => exact Frame.refl hsize

theorem framed_repository (entity : String) :
    Framed base scope (repository entity) fun _ => True := by
  intro s hsize
  refine ⟨?_, fun _ _ => trivial⟩
  have hkeeps : Keeps base scope s { s with resolver := (s.resolver.resolve entity).2 } :=
    ⟨Frame.refl hsize, .resolve s entity⟩
  rw [outcome_repository]
  dsimp only
  cases (s.resolver.resolve entity).1 with
  | error fault => exact hkeeps
  | ok name =>
    dsimp only
    cases s.collection? name with
    | none => exact hkeeps
    | some c => exact hkeeps

/-- The copy of the master secret is a value of the request. -/
theorem framed_masterSecret : Framed base scope (masterSecret scope) (base ≤ ·) := by
  intro s hsize
  cases hsecret : s.master.secret with
  | none =>
    rw [outcome_masterSecret_none scope hsecret]
    exact ⟨.refl hsize, fun _ h => nomatch h⟩
  | some id =>
    rw [outcome_masterSecret_some scope hsecret]
    refine ⟨⟨Frame.addTracked hsize _, .withVault s _⟩, fun copy hcopy => ?_⟩
    cases hcopy
    exact hsize

/-! ### The handlers -/

theorem framed_requireContext (context : String) :
    Framed base scope (requireContext context) fun _ => True := by
  rw [requireContext]
  split
  · exact framed_throw _
  · exact framed_pure trivial

theorem framed_encrypt (request : EncryptRequest) :
    Framed base scope (encrypt scope request) fun _ => True := by
  apply framed_bind (framed_requireContext _)
  intro _ _
  have hcreate : Framed base scope (liftM (Vault.create (.text request.plaintext))) (base ≤ ·) :=
    framed_vault fun v hsize => ⟨Frame.addCell hsize _, hsize⟩
  apply framed_bind hcreate
  intro plaintext hplaintext
  have hmark : Framed base scope (liftM (Vault.mark scope (.one plaintext))) fun _ => True := by
    refine framed_vault fun v hsize => ⟨Frame.track hsize fun id hid => .inr ?_, trivial⟩
    rw [List.mem_singleton.1 hid]
    exact hplaintext
  apply framed_bind hmark
  intro _ _
  apply framed_bind framed_masterSecret
  intro secret hsecret
  apply framed_bind framed_get
  intro s _
  have hseal : Framed base scope (liftM (cipher.tryEncryptText scope secret request.context
      (s.vault.text plaintext))) fun _ => True := by
    refine framed_vault fun v hsize => ⟨?_, trivial⟩
    exact (cipher.frame_tryEncryptText scope secret _ _ v).absorb hsize hsecret
  apply framed_bind hseal
  intro result _
  cases result with
  | error fault => exact framed_throw _
  | ok envelope =>
    apply framed_bind (framed_release hplaintext)
    intro _ _
    exact framed_bind (framed_release hsecret) fun _ _ => framed_pure trivial

theorem framed_decrypt (request : DecryptRequest) :
    Framed base scope (decrypt scope request) fun _ => True := by
  apply framed_bind (framed_requireContext _)
  intro _ _
  apply framed_bind framed_masterSecret
  intro secret hsecret
  have hopen : Framed base scope
      (liftM (cipher.decryptText scope secret request.context request.envelope)) (base ≤ ·) := by
    apply framed_vault
    intro v hsize
    obtain ⟨id, after, hrun, hid, -, -, hframe⟩ :=
      cipher.decryptText_spec scope secret request.context request.envelope v
    rw [hrun]
    exact ⟨hframe.absorb hsize hsecret, Nat.le_trans hsize hid⟩
  apply framed_bind hopen
  intro plaintext hplaintext
  apply framed_bind framed_get
  intro s _
  apply framed_bind (framed_release hplaintext)
  intro _ _
  exact framed_bind (framed_release hsecret) fun _ _ => framed_pure trivial

theorem framed_hash (body : Bytes) : Framed base scope (hash body) fun _ => True :=
  framed_bind framed_get fun _ _ => framed_pure trivial

theorem framed_health : Framed base scope health fun _ => True :=
  framed_bind framed_get fun _ _ => framed_pure trivial

theorem framed_storeIn (name : String) (c : Collection) (document : Json) :
    Framed base scope (storeIn scope name c document) fun _ => True := by
  apply framed_bind framed_masterSecret
  intro secret hsecret
  have hseal : Framed base scope (liftM (c.sealDocument cipher scope secret document))
      fun _ => True :=
    framed_vault fun v hsize => ⟨c.frame_sealDocument cipher scope hsecret _ hsize, trivial⟩
  apply framed_bind hseal
  intro result _
  obtain ⟨payload, fault | count⟩ := result
  · exact framed_throw _
  · apply framed_bind (framed_release hsecret)
    intro _ _
    apply framed_bind framed_get
    intro service _
    exact framed_bind (framed_insertDocument _ _) fun _ _ => framed_pure trivial

theorem framed_store (entity : String) (request : StoreDocumentRequest) :
    Framed base scope (store scope entity request) fun _ => True := by
  rw [store_eq]
  apply framed_bind (framed_repository entity)
  intro found _
  dsimp only
  split
  · exact framed_storeIn _ _ _
  · exact framed_throw _

theorem framed_openStored (c : Collection) (id : Uuid) (document : Json) :
    Framed base scope (openStored scope c id document) fun _ => True := by
  apply framed_bind framed_masterSecret
  intro secret hsecret
  have hopen : Framed base scope (liftM (c.openDocument cipher scope secret document))
      fun _ => True :=
    framed_vault fun v hsize => ⟨c.frame_openDocument cipher scope hsecret _ hsize, trivial⟩
  apply framed_bind hopen
  intro result _
  exact framed_bind (framed_release hsecret) fun _ _ => framed_pure trivial

theorem framed_fetch (entity given : String) :
    Framed base scope (fetch scope entity given) fun _ => True := by
  rw [fetch_eq]
  cases Uuid.parse? given with
  | none => exact framed_throw _
  | some id =>
    apply framed_bind (framed_repository entity)
    intro found _
    dsimp only
    cases found.2.get? id with
    | none => exact framed_throw _
    | some document =>
      apply framed_bind framed_get
      intro service _
      split
      · exact framed_openStored _ _ _
      · have hreport : Framed base scope (liftM (Vault.report (.digestMismatch entity)))
            fun _ => True :=
          framed_vault fun v hsize => ⟨Frame.addEvent hsize _, trivial⟩
        exact framed_bind hreport fun _ _ => framed_throw _

end Framed

/-! ### Requests -/

section Requests

variable {base : Nat} {scope : ScopeId} {s : Service}

theorem keeps_answer {read : Except Response α} {handler : α → Handler Response}
    (h : ∀ input, Framed base scope (handler input) fun _ => True)
    (hsize : base ≤ s.vault.cells.size) :
    Keeps base scope s ((answer read handler).run s).2 := by
  cases read with
  | error response => exact .refl hsize
  | ok input =>
    obtain ⟨hkeeps, -⟩ := h input s hsize
    rw [answer_ok]
    generalize outcome (handler input) s = result at hkeeps ⊢
    obtain ⟨fault | response, t⟩ := result
    · exact hkeeps
    · exact hkeeps

/-- Whatever a request asks for, it is answered in its scope and on values of its own. -/
theorem keeps_dispatch (request : Request) (route : Route) (hsize : base ≤ s.vault.cells.size) :
    Keeps base scope s ((dispatch scope request route).run s).2 := by
  cases route with
  | encrypt => exact keeps_answer framed_encrypt hsize
  | decrypt => exact keeps_answer framed_decrypt hsize
  | hash => exact keeps_answer framed_hash hsize
  | store entity => exact keeps_answer (fun input => framed_store input.1 input.2) hsize
  | fetch entity id => exact keeps_answer (fun input => framed_fetch input.1 input.2) hsize
  | health => exact keeps_answer (fun _ => framed_health) hsize

theorem keeps_respond (request : Request) (hsize : base ≤ s.vault.cells.size) :
    Keeps base scope s ((respond request scope).run s).2 := by
  rw [respond]
  cases Route.ofTarget? request.target with
  | none => exact .refl hsize
  | some route =>
    dsimp only
    cases route.access request.method with
    | refused => exact .refl hsize
    | full => exact keeps_dispatch request route hsize
    | head => exact keeps_dispatch request route hsize

theorem keeps_begun (s : Service) : Keeps s.vault.cells.size s.vault.scopes.size s s.begun := by
  have hscope : Frame s.vault.cells.size s.vault.scopes.size [] s.vault
      (Vault.beginScope.run s.vault).2 := Vault.frame_beginScope (Nat.le_refl _)
  exact ⟨hscope.trans (Vault.frame_retainScope hscope.size), .withVault s _⟩

theorem keeps_ended (hsize : base ≤ s.vault.cells.size)
    (hmembers : ∀ id ∈ s.vault.members scope, base ≤ id) : Keeps base scope s (s.ended scope) :=
  ⟨Vault.frame_endScope hsize hmembers, .withVault s _⟩

end Requests

variable (request : Request) (s : Service)

/-- A request touches no value that was there before it, and leads to a later service. -/
theorem keeps_handle :
    Keeps s.vault.cells.size s.vault.scopes.size s ((handle request).run s).2 := by
  have hbegun := keeps_begun s
  have hresponded := hbegun.trans (keeps_respond request hbegun.vault.size)
  -- the scope is new, so that it tracks nothing but values of the request
  have hmembers := hresponded.vault.members_le fun id hid => by
    rw [Vault.members_of_size_le (Nat.le_refl _)] at hid
    cases hid
  rw [handle_run]
  exact hresponded.trans (keeps_ended hresponded.vault.size hmembers)

/-- A request leads to a later service. -/
theorem later_handle : Later s ((handle request).run s).2 :=
  (keeps_handle request s).later

variable {s}

/-- A request leaves the contents of the values alone that were there before it. -/
theorem contents?_handle {id : ValueId} {contents : Contents}
    (h : s.vault.contents? id = some contents) :
    ((handle request).run s).2.vault.contents? id = some contents := by
  rw [(keeps_handle request s).vault.contents? (Vault.lt_of_contents?_eq_some h), h]

/-! ### Runs -/

/-- The service after it has answered some requests, one after the other. -/
def after (requests : List Request) (s : Service) : Service :=
  requests.foldl (fun s request => ((handle request).run s).2) s

theorem after_cons (requests : List Request) (s : Service) :
    after (request :: requests) s = after requests ((handle request).run s).2 := by
  rw [after, List.foldl_cons, after]

theorem after_append (first second : List Request) (s : Service) :
    after (first ++ second) s = after second (after first s) := List.foldl_append

/-- A run of requests leads to a later service. -/
theorem later_after (requests : List Request) (s : Service) : Later s (after requests s) := by
  induction requests generalizing s with
  | nil => exact .refl s
  | cons request rest ih =>
    rw [after_cons]
    exact (later_handle request s).trans (ih _)

end FieldVault.Service
