import FieldVault.Proofs.Cipher.Endings
import FieldVault.Proofs.Document.OpenedFields
import FieldVault.Proofs.Json.Unique

/-!
# Reports tell no secrets

A decryption that fails is reported with its context, the length of its input in bytes and the text
of its fault. So two decryptions that agree in these make the same report, whatever the secrets, the
labels and the inputs. The same holds for documents: which texts are opened depends on where texts
stand and not on what they are (`targets_eq_of_isSome`), so two documents with texts of the same
lengths and the same outcomes in the places of the configured fields are opened with the same
reports (`reports_tell_no_secrets`).
-/

set_option autoImplicit false

namespace FieldVault

open Wipe (ValueId)

/-! ### Faults are told by their texts -/

namespace Cipher

theorem Fault.message_invalidEnvelope (n : Nat) :
    (invalidEnvelope n).message = "invalid envelope: " ++ (toString n ++ " bytes") :=
  String.append_assoc

theorem Fault.colon_mem_message (n : Nat) : ':' ∈ (invalidEnvelope n).message.toList := by
  have hstem : ':' ∈ "invalid envelope: ".toList := by decide
  rw [message_invalidEnvelope, String.toList_append]
  exact List.mem_append_left _ hstem

/-- Only the text that gives a length has a colon. -/
theorem Fault.exists_of_colon_mem_message {fault : Fault} (h : ':' ∈ fault.message.toList) :
    ∃ n, fault = .invalidEnvelope n := by
  cases fault with
  | invalidEnvelope n => exact ⟨n, rfl⟩
  | _ => exact absurd h (by decide)

/-- Faults have different texts. -/
theorem Fault.message_injective {a b : Fault} (h : a.message = b.message) : a = b := by
  cases a with
  | invalidEnvelope m =>
    have hcolon := colon_mem_message m
    rw [h] at hcolon
    obtain ⟨n, rfl⟩ := exists_of_colon_mem_message hcolon
    rw [message_invalidEnvelope, message_invalidEnvelope, String.append_right_inj,
      String.append_left_inj] at h
    rw [Json.eq_of_repr_eq h]
  | _ =>
    cases b with
    | invalidEnvelope n =>
      have hcolon := colon_mem_message n
      rw [← h] at hcolon
      obtain ⟨m, hm⟩ := exists_of_colon_mem_message hcolon
      cases hm
    | _ => first | rfl | exact absurd h (by decide)

end Cipher

/-! ### Reports of single decryptions -/

namespace FieldCipher

open Cipher Vault

/-- What a report tells of an outcome: the text of the fault, if there is one. -/
def failure? {α : Type} : Except Fault α → Option String
  | .ok _ => none
  | .error fault => some fault.message

/-- What is reported of a decryption with a context and an input of some bytes. -/
def failureReports {α : Type} (context : String) (size : Nat) : Except Fault α → List Event
  | .ok _ => []
  | .error fault => [.decryptionFailed context size fault]

/-- Outcomes that fail in the same way are reported in the same way. -/
theorem failureReports_congr {α β : Type} {first : Except Fault α} {second : Except Fault β}
    (h : failure? first = failure? second) (context : String) (size : Nat) :
    failureReports context size first = failureReports context size second := by
  cases first with
  | ok a =>
    cases second with
    | ok b => rfl
    | error fault => cases h
  | error fault =>
    cases second with
    | ok b => cases h
    | error other =>
      rw [Fault.message_injective (Option.some.inj h)]
      rfl

theorem reportsOf_eq (context envelope : String) (outcome : Except Fault String) :
    reportsOf context envelope outcome =
      failureReports context (Bytes.ofText envelope).length outcome := by
  cases outcome <;> rfl

/-- A call fails as what it comes to. -/
theorem EndsIn.failure?_eq {α : Type} {contents : α → Contents}
    {result : Except Fault ValueId × Vault} {outcome : Except Fault α}
    (h : EndsIn contents result outcome) : failure? result.1 = failure? outcome := by
  cases outcome with
  | ok a =>
    obtain ⟨id, hid, -⟩ := h
    rw [hid]
    rfl
  | error fault =>
    have hfault : result.1 = .error fault := h
    rw [hfault]
    rfl

section

variable (cipher : FieldCipher) (scope : ScopeId) (secret : ValueId) (context : String) (v : Vault)

/-- The strict form of decryption reports nothing. -/
theorem events_tryDecrypt (envelope : Bytes) :
    ((cipher.tryDecrypt scope secret context envelope).run v).2.events = v.events := by
  rw [tryDecrypt_run]
  cases Envelope.ofBytes envelope with
  | error fault => rfl
  | ok parsed => exact afterOpen_events v scope secret _

/-- The plain form reports a failure of the strict form, and nothing else. -/
theorem events_decrypt (envelope : Bytes) :
    ((cipher.decrypt scope secret context envelope).run v).2.events = v.events ++
      failureReports context envelope.length
        ((cipher.tryDecrypt scope secret context envelope).run v).1 := by
  rw [decrypt_run, ← cipher.events_tryDecrypt scope secret context v envelope]
  rcases (cipher.tryDecrypt scope secret context envelope).run v with ⟨fault | id, after⟩
  · rfl
  · exact (List.append_nil _).symm

theorem events_decryptText (envelope : String) :
    ((cipher.decryptText scope secret context envelope).run v).2.events = v.events ++
      failureReports context (Bytes.ofText envelope).length
        ((cipher.tryDecryptText scope secret context envelope).run v).1 := by
  obtain ⟨id, after, hrun, -, -, hevents, -⟩ :=
    cipher.decryptText_spec scope secret context envelope v
  have hends := cipher.endsIn_tryDecryptText scope secret context v envelope
  rw [hrun, hevents, reportsOf_eq, failureReports_congr hends.failure?_eq]

end

end FieldCipher

/-! ### Reports of documents -/

namespace Document

open Json Vault FieldCipher

/-- A location that comes before another one does not come after it. -/
theorem Location.Before.asymm {first second : Location} (h : Before first second) :
    ¬ Before second first := by
  induction h with
  | item hlt rest other =>
    intro hback
    cases hback with
    | item hgt => exact Nat.lt_asymm hlt hgt
    | step => exact Nat.lt_irrefl _ hlt
  | step next _ ih =>
    intro hback
    cases hback with
    | item hlt => exact Nat.lt_irrefl _ hlt
    | step _ hrest => exact ih hrest

variable {payload other : Json}

/-- Segments lead to the same locations in two values with texts in the same places. -/
theorem locations_eq_of_isSome {segments : List Segment}
    (h : ∀ location : Location, location.map Step.segment = segments →
      (payload.textAt? location).isSome = (other.textAt? location).isSome) :
    locations segments payload = locations segments other := by
  have hmem : ∀ location, location ∈ locations segments payload ↔
      location ∈ locations segments other := by
    intro location
    rw [mem_locations, mem_locations]
    refine and_congr_right fun hlocation => ?_
    rw [h location hlocation]
  have hperm := (List.perm_ext_iff_of_nodup (nodup_locations segments payload)
    (nodup_locations segments other)).2 hmem
  -- both lists are in order
  refine hperm.eq_of_pairwise (fun _ _ _ _ hbefore hafter => absurd hafter hbefore.asymm)
    (pairwise_before_locations segments payload) (pairwise_before_locations segments other)

/-- Paths lead to the same targets in two documents with texts in the same places. -/
theorem targets_eq_of_isSome {paths : List String}
    (h : ∀ path ∈ paths, ∀ location : Location, location.map Step.segment = parsePath path →
      (payload.textAt? location).isSome = (other.textAt? location).isSome) :
    targets paths payload = targets paths other := by
  rw [targets, targets, List.flatMap_def, List.flatMap_def]
  congr 1
  refine List.map_congr_left fun path hpath => ?_
  rw [locations_eq_of_isSome (h path hpath)]

/-- Calls at the same targets are reported alike if those at each target are. -/
theorem flatMap_callsFor_congr {list : List Target} {first second : Call → List Event}
    (h : ∀ target ∈ list, Option.Rel (fun text otherText =>
      first (target.1, text) = second (target.1, otherText))
      (payload.textAt? target.2) (other.textAt? target.2)) :
    (callsFor list payload).flatMap first = (callsFor list other).flatMap second := by
  induction list with
  | nil => rfl
  | cons target rest ih =>
    obtain ⟨htarget, hrest⟩ := List.forall_mem_cons.1 h
    have hothers := ih hrest
    rw [callsFor, callsFor] at hothers ⊢
    rw [List.filterMap_cons, List.filterMap_cons]
    generalize payload.textAt? target.2 = text at htarget ⊢
    generalize other.textAt? target.2 = otherText at htarget ⊢
    cases htarget with
    | none => exact hothers
    | some hreports =>
      simp only [Option.map_some, List.flatMap_cons, hreports, hothers]

variable (cipher : FieldCipher) (c : Collection) (scope : ScopeId) {secret : ValueId} {key : String}
  {v : Vault}

/-- The failures of the fields are reported, in the order of the visit. -/
theorem events_openDocument (hsecret : v.contents? secret = some (.text key)) (payload : Json) :
    ((c.openDocument cipher scope secret payload).run v).2.events = v.events ++
      (callsFor (targets c.fields payload) payload).flatMap (c.fieldReports cipher key) := by
  have hnodup : ((targets c.fields payload).map Prod.snd).Nodup := nodup_targets c.fields.nodup
  obtain ⟨opened, after, hrun, -, hreports⟩ := exists_opened_targets cipher c scope hnodup
    (fun _ htarget => (mem_targets.1 htarget).2.2) hsecret
  rw [Collection.openDocument, forEachField_eq_visitTargets]
  simp only [run_bind, hrun, run_pure, hreports]

/-- The report of a field is that of its strict decryption before anything is opened. -/
theorem fieldReports_eq (hsecret : v.contents? secret = some (.text key)) (path text : String) :
    c.fieldReports cipher key (path, text) =
      failureReports (c.fieldContext path) (Bytes.ofText text).length
        ((cipher.tryDecryptText scope secret (c.fieldContext path) text).run v).1 := by
  have hends := cipher.endsIn_tryDecryptText scope secret (c.fieldContext path) v text
  rw [text_of_contents? hsecret] at hends
  rw [Collection.fieldReports, reportsOf_eq, failureReports_congr hends.failure?_eq]
  rfl

end Document

/-! ### Two runs -/

/-- Who decrypts: a cipher with a secret, the scope of its work and the vault at the start. -/
structure Opener where
  cipher : FieldCipher
  scope : ScopeId
  secret : ValueId
  vault : Vault

namespace Opener

open Document FieldCipher

/-- How the strict decryption of a text fails, if it does. -/
def textFailure? (o : Opener) (context envelope : String) : Option String :=
  failure? ((o.cipher.tryDecryptText o.scope o.secret context envelope).run o.vault).1

/-- How the strict decryption of bytes fails, if it does. -/
def bytesFailure? (o : Opener) (context : String) (envelope : Bytes) : Option String :=
  failure? ((o.cipher.tryDecrypt o.scope o.secret context envelope).run o.vault).1

/-- Two texts, or none in both places, that have as many bytes and fail in the same way. -/
def Alike (first second : Opener) (context : String) : Option String → Option String → Prop :=
  Option.Rel fun text otherText => (Bytes.ofText text).length = (Bytes.ofText otherText).length ∧
    first.textFailure? context text = second.textFailure? context otherText

theorem Alike.isSome_eq {first second : Opener} {context : String} {text otherText : Option String}
    (h : Alike first second context text otherText) : text.isSome = otherText.isSome := by
  cases h <;> rfl

section

variable {first second : Opener} {c d : Collection} {key otherKey : String} {payload other : Json}

/-- Fields that are alike are reported alike. -/
theorem fieldReports_alike (hentity : d.entity = c.entity)
    (hfirst : first.vault.contents? first.secret = some (.text key))
    (hsecond : second.vault.contents? second.secret = some (.text otherKey)) {path : String}
    {text otherText : Option String}
    (h : Alike first second (c.fieldContext path) text otherText) :
    Option.Rel (fun text otherText => c.fieldReports first.cipher key (path, text) =
      d.fieldReports second.cipher otherKey (path, otherText)) text otherText := by
  have hcontext : d.fieldContext path = c.fieldContext path := by
    rw [Collection.fieldContext, Collection.fieldContext, hentity]
  cases h with
  | none => exact .none
  | some h =>
    obtain ⟨hlength, hfailure⟩ := h
    refine .some ?_
    rw [fieldReports_eq first.cipher c first.scope hfirst,
      fieldReports_eq second.cipher d second.scope hsecond, hcontext, hlength]
    exact failureReports_congr hfailure _ _

/-- Documents whose fields are alike are opened with the same reports. -/
theorem calls_reported_alike (hentity : d.entity = c.entity) (hfields : d.fields = c.fields)
    (hfirst : first.vault.contents? first.secret = some (.text key))
    (hsecond : second.vault.contents? second.secret = some (.text otherKey))
    (halike : ∀ path ∈ c.fields, ∀ location : Location,
      location.map Step.segment = parsePath path →
      Alike first second (c.fieldContext path) (payload.textAt? location)
        (other.textAt? location)) :
    (callsFor (targets c.fields payload) payload).flatMap (c.fieldReports first.cipher key) =
      (callsFor (targets d.fields other) other).flatMap
        (d.fieldReports second.cipher otherKey) := by
  have htargets : targets c.fields payload = targets d.fields other := by
    rw [hfields]
    exact targets_eq_of_isSome fun path hpath location hlocation =>
      (halike path hpath location hlocation).isSome_eq
  rw [← htargets]
  refine flatMap_callsFor_congr fun target htarget => ?_
  obtain ⟨hpath, hlocation, -⟩ := mem_targets.1 htarget
  exact fieldReports_alike hentity hfirst hsecond (halike target.1 hpath target.2 hlocation)

end

/-- The reports of two runs are the same if the runs agree in the lengths of their inputs and in how
these fail, whatever the secrets, the labels and the inputs themselves. For two documents this is
asked of the texts in the places of the configured fields, where a text must stand in both or in
neither; nothing is asked of the rest. -/
theorem reports_tell_no_secrets (first second : Opener) :
    (∀ (c d : Collection) (key otherKey : String) (payload other : Json),
      d.entity = c.entity → d.fields = c.fields →
      first.vault.contents? first.secret = some (.text key) →
      second.vault.contents? second.secret = some (.text otherKey) →
      (∀ path ∈ c.fields, ∀ location : Location, location.map Step.segment = parsePath path →
        Alike first second (c.fieldContext path) (payload.textAt? location)
          (other.textAt? location)) →
      ∃ reports,
        ((c.openDocument first.cipher first.scope first.secret payload).run
          first.vault).2.events = first.vault.events ++ reports ∧
        ((d.openDocument second.cipher second.scope second.secret other).run
          second.vault).2.events = second.vault.events ++ reports) ∧
    (∀ (context : String) (envelope other : Bytes), envelope.length = other.length →
      first.bytesFailure? context envelope = second.bytesFailure? context other →
      ∃ reports,
        ((first.cipher.decrypt first.scope first.secret context envelope).run
          first.vault).2.events = first.vault.events ++ reports ∧
        ((second.cipher.decrypt second.scope second.secret context other).run
          second.vault).2.events = second.vault.events ++ reports) ∧
    (∀ context envelope other : String,
      Alike first second context (some envelope) (some other) →
      ∃ reports,
        ((first.cipher.decryptText first.scope first.secret context envelope).run
          first.vault).2.events = first.vault.events ++ reports ∧
        ((second.cipher.decryptText second.scope second.secret context other).run
          second.vault).2.events = second.vault.events ++ reports) := by
  refine ⟨?_, ?_, ?_⟩
  · intro c d key otherKey payload other hentity hfields hfirst hsecond halike
    refine ⟨_, events_openDocument first.cipher c first.scope hfirst payload, ?_⟩
    rw [calls_reported_alike hentity hfields hfirst hsecond halike]
    exact events_openDocument second.cipher d second.scope hsecond other
  · intro context envelope other hlength hfailure
    refine ⟨_, events_decrypt _ _ _ _ _ envelope, ?_⟩
    rw [hlength, failureReports_congr hfailure]
    exact events_decrypt _ _ _ _ _ other
  · intro context envelope other halike
    refine ⟨_, events_decryptText _ _ _ _ _ envelope, ?_⟩
    cases halike with
    | some h =>
      rw [h.1, failureReports_congr h.2]
      exact events_decryptText _ _ _ _ _ other

/-- Two people with names of the same length that were never sealed are reported alike, under other
secrets and other labels; what else is in the documents is not looked at. -/
theorem unsealed_names_reported_alike :
    let c : Collection := .new "Person" ["name", "note"]
    let first : Opener := ⟨.standard, 0, 0, Vault.ofTexts ["k"]⟩
    let second : Opener := ⟨⟨"archive"⟩, 0, 0, Vault.ofTexts ["another secret"]⟩
    let payload : Json := .obj [("name", .str "Ann"), ("note", .str "AAAA")]
    let other : Json := .obj [("id", .null), ("name", .str "Bob"), ("note", .str "BBBB")]
    first.vault.contents? first.secret = some (.text "k") ∧
    second.vault.contents? second.secret = some (.text "another secret") ∧
    (∀ path ∈ c.fields, ∀ location : Location, location.map Step.segment = parsePath path →
      Alike first second (c.fieldContext path) (payload.textAt? location)
        (other.textAt? location)) ∧
    Alike first second "Person.name" (some "Ann") (some "Bob") ∧
    first.bytesFailure? "Person.key" [0] = second.bytesFailure? "Person.key" [1] ∧
    (∃ reports,
      ((c.openDocument first.cipher 0 0 payload).run first.vault).2.events = reports ∧
      ((c.openDocument second.cipher 0 0 other).run second.vault).2.events = reports) ∧
    (∃ reports,
      ((first.cipher.decrypt 0 0 "Person.key" [0]).run first.vault).2.events = reports ∧
      ((second.cipher.decrypt 0 0 "Person.key" [1]).run second.vault).2.events = reports) ∧
    ∃ reports,
      ((first.cipher.decryptText 0 0 "Person.name" "Ann").run first.vault).2.events = reports ∧
      ((second.cipher.decryptText 0 0 "Person.name" "Bob").run second.vault).2.events =
        reports := by
  intro c first second payload other
  have hname : Alike first second "Person.name" (some "Ann") (some "Bob") := .some ⟨rfl, rfl⟩
  have hnote : Alike first second "Person.note" (some "AAAA") (some "BBBB") := .some ⟨rfl, rfl⟩
  have halike : ∀ path ∈ c.fields, ∀ location : Location,
      location.map Step.segment = parsePath path →
      Alike first second (c.fieldContext path) (payload.textAt? location)
        (other.textAt? location) := by
    intro path hpath location hlocation
    rcases PathSet.mem_ofList.1 hpath with _ | ⟨_, _ | ⟨_, ⟨⟩⟩⟩
    · rcases location with _ | ⟨_ | _, _ | ⟨_, _⟩⟩ <;> cases hlocation
      exact hname
    · rcases location with _ | ⟨_ | _, _ | ⟨_, _⟩⟩ <;> cases hlocation
      exact hnote
  obtain ⟨hdocuments, hbytes, htexts⟩ := reports_tell_no_secrets first second
  exact ⟨rfl, rfl, halike, hname, rfl,
    hdocuments c c "k" "another secret" payload other rfl rfl rfl rfl halike,
    hbytes "Person.key" [0] [1] rfl rfl, htexts "Person.name" "Ann" "Bob" hname⟩

end Opener

end FieldVault
