import FieldVault.Proofs.Document.Frame
import FieldVault.Proofs.Document.Replacement

/-!
# Opening field by field

A document is opened one text after the other, and no text has a bearing on another one. Where the
strict form of decryption gives a text, this text takes the place of the one that stood there; where
it fails, the text stays and the failure is reported (`fields_opened_one_by_one`). So a document in
which sealed, altered and plain texts are mixed is opened as far as it can be.
-/

set_option autoImplicit false

namespace FieldVault.Document

open Json Vault FieldCipher
open Wipe (ValueId)

namespace Collection

/-- What the text of a field comes to when it is decrypted strictly. -/
def opensTo (c : Collection) (cipher : FieldCipher) (key path text : String) :
    Except Cipher.Fault String :=
  cipher.openedText key (c.fieldContext path) text

/-- What is reported of the text of a field that is opened. -/
def fieldReports (c : Collection) (cipher : FieldCipher) (key : String) (call : Call) :
    List Event :=
  reportsOf (c.fieldContext call.1) call.2 (c.opensTo cipher key call.1 call.2)

end Collection

variable (cipher : FieldCipher) (c : Collection) (scope : ScopeId) {secret : ValueId} {key : String}

/-- The texts of targets are opened one after the other. -/
theorem exists_opened_targets {list : List Target} {document : Json}
    (hnodup : (list.map Prod.snd).Nodup)
    (htexts : ∀ target ∈ list, (document.textAt? target.2).isSome) {v : Vault}
    (hsecret : v.contents? secret = some (.text key)) :
    ∃ opened after, (visitTargets (c.openField cipher scope secret) list document).run v =
        ((opened, .ok list.length), after) ∧
      Replaced (fun _ path text new => new = textOrInput text (c.opensTo cipher key path text)) list
        document opened ∧
      after.events = v.events ++ (callsFor list document).flatMap (c.fieldReports cipher key) := by
  induction list generalizing v with
  | nil => exact ⟨document, v, rfl, .nil document, (List.append_nil _).symm⟩
  | cons target rest ih =>
    obtain ⟨path, location⟩ := target
    obtain ⟨hfresh, hrest⟩ := List.nodup_cons.1 hnodup
    obtain ⟨text, hfound⟩ := Option.isSome_iff_exists.1 (htexts _ List.mem_cons_self)
    obtain ⟨middle, hrun, hevents, hframe⟩ := c.openField_spec cipher scope secret path text v
    rw [text_of_contents? hsecret] at hrun hevents
    have hkept : middle.contents? secret = some (.text key) := by
      rw [hframe.contents? (lt_of_contents?_eq_some hsecret), hsecret]
    -- the other targets are opened as if this one were still as it was
    obtain ⟨opened, after, hothers, hreplaced, hreports⟩ :=
      ih hrest (fun target htarget => htexts target (List.mem_cons_of_mem _ htarget)) hkept
    refine ⟨_, after, ?_, hreplaced.cons hfresh hfound rfl, ?_⟩
    · rw [visitTargets, hfound]
      simp only [run_bind, hrun]
      rw [visitTargets_setText hfresh]
      simp only [run_bind, run_pure] at hothers ⊢
      rw [hothers]
      simp only [Except.map, List.length_cons, Nat.add_comm]
      rfl
    · rw [hreports, hevents, callsFor_cons hfound, List.flatMap_cons, List.append_assoc]
      rfl

/-- A document is opened field by field, and the visits are counted. A field is a text at the end of
a configured path, and no text is two fields. The new text of a field is the one that the strict
form of decryption gives for the old text, or the old one if that fails, and depends on nothing
else; each failure is reported once, in the order of the visit, with the context, the length in
bytes and the fault. Nothing else in the document is changed. -/
theorem fields_opened_one_by_one {v : Vault} (hsecret : v.contents? secret = some (.text key))
    (payload : Json) :
    let fields := targets c.fields payload
    ∃ opened after, (c.openDocument cipher scope secret payload).run v =
        ((opened, fields.length), after) ∧
      (∀ path location, (path, location) ∈ fields ↔ path ∈ c.fields ∧
        location.map Step.segment = parsePath path ∧ (payload.textAt? location).isSome) ∧
      (fields.map Prod.snd).Nodup ∧
      (∀ path text, cipher.DecryptsTo key (c.fieldContext path) text
        (c.opensTo cipher key path text)) ∧
      Replaced (fun _ path text new => new = textOrInput text (c.opensTo cipher key path text))
        fields payload opened ∧
      after.events = v.events ++ (callsFor fields payload).flatMap (c.fieldReports cipher key) := by
  intro fields
  have hnodup : ((targets c.fields payload).map Prod.snd).Nodup := nodup_targets c.fields.nodup
  obtain ⟨opened, after, hrun, hreplaced, hreports⟩ := exists_opened_targets cipher c scope hnodup
    (fun _ htarget => (mem_targets.1 htarget).2.2) hsecret
  refine ⟨opened, after, ?_, fun path location => mem_targets, hnodup,
    fun path text => cipher.decryptsTo_openedText _ _ _, hreplaced, hreports⟩
  rw [Collection.openDocument, forEachField_eq_visitTargets]
  simp only [run_bind, hrun, run_pure]
  rfl

/-- Of a name that was never sealed, a sealed tag and a tag that is too short, the sealed tag is
opened and the others are reported, in the order of the paths. -/
theorem sealed_tag_opened :
    let c : Collection := .new "Person" ["tags[]", "name"]
    (Vault.ofTexts ["k"]).contents? 0 = some (.text "k") ∧
    ∃ (e : Envelope) (opened : Json) (after : Vault),
      let payload : Json :=
        .obj [("name", .str "Ann"), ("tags", .arr [.str "AAAA", .str e.toBase64])]
      (c.openDocument .standard 0 0 payload).run (Vault.ofTexts ["k"]) = ((opened, 3), after) ∧
      opened.textAt? [.member "name"] = some "Ann" ∧
      opened.textAt? [.member "tags", .item 0] = some "AAAA" ∧
      opened.textAt? [.member "tags", .item 1] = some "red" ∧
      after.events = [.decryptionFailed "Person.name" 3 .encoding,
        .decryptionFailed "Person.tags[]" 4 (.invalidEnvelope 3)] := by
  intro c
  have hlimit : (Bytes.ofText "red").length ≤ Gcm.plaintextLimit := by decide
  obtain ⟨e, hsealed, -, -⟩ := FieldCipher.standard.exists_sealed "k" "Person.tags[]"
    ((Vault.ofTexts ["k"]).nonces 0) hlimit
  let payload : Json :=
    .obj [("name", .str "Ann"), ("tags", .arr [.str "AAAA", .str e.toBase64])]
  have hfields : targets c.fields payload = [("name", [.member "name"]),
      ("tags[]", [.member "tags", .item 0]), ("tags[]", [.member "tags", .item 1])] := rfl
  have hcalls : callsFor (targets c.fields payload) payload =
      [("name", "Ann"), ("tags[]", "AAAA"), ("tags[]", e.toBase64)] := rfl
  have hplain : c.opensTo .standard "k" "name" "Ann" = .error .encoding := rfl
  have hshort : c.opensTo .standard "k" "tags[]" "AAAA" = .error (.invalidEnvelope 3) := rfl
  have hred : c.opensTo .standard "k" "tags[]" e.toBase64 = .ok "red" :=
    FieldCipher.openedText_of_sealed hsealed
  obtain ⟨opened, after, hrun, -, -, -, hreplaced, hevents⟩ :=
    fields_opened_one_by_one .standard c 0 (rfl : (Vault.ofTexts ["k"]).contents? 0 = _) payload
  rw [hcalls] at hevents
  rw [hfields] at hrun hreplaced
  refine ⟨rfl, e, opened, after, hrun, ?_, ?_, ?_, hevents.trans ?_⟩
  · obtain ⟨new, hnew, rfl⟩ := hreplaced.texts 0 _ _ "Ann" rfl rfl
    rw [hnew, hplain]
    rfl
  · obtain ⟨new, hnew, rfl⟩ := hreplaced.texts 1 _ _ "AAAA" rfl rfl
    rw [hnew, hshort]
    rfl
  · obtain ⟨new, hnew, rfl⟩ := hreplaced.texts 2 _ _ e.toBase64 rfl rfl
    rw [hnew, hred]
    rfl
  · simp only [List.flatMap_cons, Collection.fieldReports, hplain, hshort, hred, reportsOf]
    rfl

end FieldVault.Document
