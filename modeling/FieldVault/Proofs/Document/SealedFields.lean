import FieldVault.Proofs.Cipher.Draws
import FieldVault.Proofs.Document.Frame
import FieldVault.Proofs.Document.Replacement
import Mathlib.Data.List.TakeWhile

/-!
# Sealing field by field

Sealing a document changes its fields and nothing else. The new text of field number `k` is the
text of an envelope that starts with draw number `k`; it is longer than the old text, and opens to
it under the context of the field (`Collection.SealedAs`). A text too long for AES-GCM ends the
visit: the fields before it are sealed in this way, and the others stay
(`fields_sealed_one_by_one`).
-/

set_option autoImplicit false

namespace FieldVault.Document

open Json Vault FieldCipher
open Wipe (ValueId)

/-- The new text is one that sealing the text of a field with a nonce may give. -/
structure Collection.SealedAs (c : Collection) (cipher : FieldCipher) (key : String)
    (nonce : Gcm.Nonce) (path text new : String) : Prop where
  longer : text.length < new.length
  longer_ofText : (Bytes.ofText text).length < (Bytes.ofText new).length
  envelope : ∃ e, Envelope.ofBase64 new = .ok e ∧ e.nonce = nonce
  opens : cipher.DecryptsTo key (c.entity ++ "." ++ path) new (.ok text)

/-- The text at a target is within the limit. -/
def fits (document : Json) (target : Target) : Bool :=
  (document.textAt? target.2).all fun text =>
    decide ((Bytes.ofText text).length ≤ Gcm.plaintextLimit)

variable (cipher : FieldCipher) (c : Collection) (scope : ScopeId) {secret : ValueId} {key : String}
  {path text : String} {v : Vault}

/-! ### One field -/

/-- What a text is sealed in. -/
theorem sealedAs_of_sealed {nonce : Gcm.Nonce} {e : Envelope}
    (h : cipher.sealed key (c.fieldContext path) nonce (Bytes.ofText text) = .ok e) :
    c.SealedAs cipher key nonce path text e.toBase64 := by
  have hfits : (Bytes.ofText text).length ≤ e.ciphertext.length :=
    Nat.le.intro (length_of_sealed h).symm
  have hopened := cipher.decryptsTo_openedText key (c.fieldContext path) e.toBase64
  rw [openedText_of_sealed h] at hopened
  refine ⟨Envelope.length_lt_length_toBase64 hfits, ?_, ⟨e, ?_, nonce_of_sealed h⟩, hopened⟩
  · exact Nat.lt_of_lt_of_le (Envelope.length_ofText_lt_length_toBase64 hfits)
      (Envelope.length_le_length_ofText _)
  · exact Envelope.ofBase64_toBase64 (tagBytes_le_of_sealed h)

/-- A field within the limit is sealed with the next nonce, and the secret is kept. -/
theorem sealField_of_le (hsecret : v.contents? secret = some (.text key)) (path : String)
    (hlimit : (Bytes.ofText text).length ≤ Gcm.plaintextLimit) :
    let after := (v.spendKey scope secret).afterDraw
    ∃ new, (c.sealField cipher scope secret path text).run v = (.ok new, after) ∧
      c.SealedAs cipher key (v.nonces v.drawn) path text new ∧
      after.contents? secret = some (.text key) := by
  intro after
  obtain ⟨e, hsealed, -, -⟩ :=
    cipher.exists_sealed key (c.fieldContext path) (v.nonces v.drawn) hlimit
  refine ⟨e.toBase64, ?_, sealedAs_of_sealed cipher c hsealed, ?_⟩
  · rw [Collection.sealField, tryEncryptText_run, text_of_contents? hsecret, hsealed]
    rfl
  · have hframe := cipher.frame_tryEncryptText scope secret (c.fieldContext path) text v
    rw [tryEncryptText_run] at hframe
    rw [← hsecret]
    exact hframe.contents? (lt_of_contents?_eq_some hsecret)

/-- A field that is too long fails. -/
theorem sealField_of_lt (path : String)
    (hlong : Gcm.plaintextLimit < (Bytes.ofText text).length) :
    (c.sealField cipher scope secret path text).run v =
      (.error .aeadFailure, (v.spendKey scope secret).afterDraw) := by
  rw [Collection.sealField, tryEncryptText_run, sealed_of_lt cipher _ _ _ hlong]
  rfl

/-! ### Documents -/

/-- What sealing the texts of some targets comes to: their number, if all of them are within the
limit. -/
def sealResult (list : List Target) (document : Json) : Except Cipher.Fault Nat :=
  if list.all (fits document) then .ok list.length else .error .aeadFailure

section

variable {list : List Target} {document : Json} {location : Location}

theorem fits_eq_decide (h : document.textAt? location = some text) :
    fits document (path, location) =
      decide ((Bytes.ofText text).length ≤ Gcm.plaintextLimit) := by
  rw [fits, h, Option.all_some]

theorem sealResult_cons_of_fits {target : Target} (h : fits document target = true) :
    sealResult (target :: list) document = (sealResult list document).map (1 + ·) := by
  rw [sealResult, sealResult, List.all_cons, h, Bool.true_and, List.length_cons, Nat.add_comm]
  split <;> rfl

theorem sealResult_cons_of_not_fits {target : Target} (h : fits document target = false) :
    sealResult (target :: list) document = .error .aeadFailure := by
  rw [sealResult, List.all_cons, h]
  rfl

end

/-- The texts of targets are sealed one after the other, up to the first one that is too long. -/
theorem exists_sealed_prefix {list : List Target} {document : Json}
    (hnodup : (list.map Prod.snd).Nodup)
    (htexts : ∀ target ∈ list, (document.textAt? target.2).isSome) {v : Vault}
    (hsecret : v.contents? secret = some (.text key)) :
    ∃ sealed after, (visitTargets (c.sealField cipher scope secret) list document).run v =
        ((sealed, sealResult list document), after) ∧
      Replaced (fun k => c.SealedAs cipher key (v.nonces (v.drawn + k)))
        (list.takeWhile (fits document)) document sealed ∧
      after.drawn = v.drawn + min list.length ((list.takeWhile (fits document)).length + 1) := by
  induction list generalizing v with
  | nil => exact ⟨document, v, rfl, .nil document, rfl⟩
  | cons target rest ih =>
    obtain ⟨path, location⟩ := target
    obtain ⟨hfresh, hrest⟩ := List.nodup_cons.1 hnodup
    obtain ⟨text, hfound⟩ := Option.isSome_iff_exists.1 (htexts _ List.mem_cons_self)
    have hfits : fits document (path, location) = _ := fits_eq_decide hfound
    rw [visitTargets, hfound]
    rcases Nat.lt_or_ge Gcm.plaintextLimit (Bytes.ofText text).length with hlong | hlimit
    · -- nothing is sealed, and the visit ends
      rw [decide_eq_false (Nat.not_le_of_lt hlong)] at hfits
      have hnone : ((path, location) :: rest).takeWhile (fits document) = [] :=
        List.takeWhile_cons_of_neg (by rw [hfits]; exact Bool.false_ne_true)
      rw [hnone, sealResult_cons_of_not_fits hfits, List.length_cons, List.length_nil,
        Nat.min_eq_right (Nat.le_add_left _ _)]
      refine ⟨document, (v.spendKey scope secret).afterDraw, ?_, .nil document, rfl⟩
      simp only [run_bind, sealField_of_lt cipher c scope path hlong]
      rfl
    · rw [decide_eq_true hlimit] at hfits
      have hfirst : ((path, location) :: rest).takeWhile (fits document) =
          (path, location) :: rest.takeWhile (fits document) := List.takeWhile_cons_of_pos hfits
      have hfreshPrefix : location ∉ (rest.takeWhile (fits document)).map Prod.snd := fun hmem =>
        hfresh (((List.takeWhile_prefix _).sublist.map _).subset hmem)
      obtain ⟨new, hrun, hnew, hkept⟩ := sealField_of_le cipher c scope hsecret path hlimit
      -- the other targets are sealed as if this one were still as it was, with the draws left
      obtain ⟨sealed, after, hothers, hreplaced, hdrawn⟩ :=
        ih hrest (fun target htarget => htexts target (List.mem_cons_of_mem _ htarget)) hkept
      have hnonces : (v.spendKey scope secret).afterDraw.nonces = v.nonces := rfl
      have hnext : (v.spendKey scope secret).afterDraw.drawn = v.drawn + 1 := rfl
      simp only [hnonces, hnext, Nat.add_assoc, Nat.add_comm 1] at hreplaced hdrawn
      rw [hfirst, sealResult_cons_of_fits hfits, List.length_cons, List.length_cons,
        Nat.add_min_add_right]
      refine ⟨sealed.setText location new, after, ?_, hreplaced.cons hfreshPrefix hfound hnew,
        hdrawn⟩
      simp only [run_bind, hrun]
      rw [visitTargets_setText hfresh]
      simp only [run_bind, run_pure] at hothers ⊢
      rw [hothers]

/-- A document is sealed field by field, in the order of the visit and with one draw for each
field, up to the first one that is longer than AES-GCM allows; if there is none, all fields are
sealed and counted. A field is a text at the end of a configured path, and no text is two fields.
Nothing else in the document is changed. -/
theorem fields_sealed_one_by_one {v : Vault} (hsecret : v.contents? secret = some (.text key))
    (payload : Json) :
    let fields := targets c.fields payload
    let sealable := fields.takeWhile (fits payload)
    ∃ sealed result after,
      (c.sealDocument cipher scope secret payload).run v = ((sealed, result), after) ∧
      (∀ path location, (path, location) ∈ fields ↔ path ∈ c.fields ∧
        location.map Step.segment = parsePath path ∧ (payload.textAt? location).isSome) ∧
      (fields.map Prod.snd).Nodup ∧
      Replaced (fun k => c.SealedAs cipher key (v.nonces (v.drawn + k))) sealable payload sealed ∧
      ((∀ target ∈ fields, fits payload target) → sealable = fields ∧
        result = .ok fields.length ∧ after.drawn = v.drawn + fields.length) ∧
      ((∃ target ∈ fields, ¬ fits payload target) → sealable ≠ fields ∧
        result = .error .aeadFailure ∧ after.drawn = v.drawn + (sealable.length + 1)) := by
  intro fields sealable
  have hnodup : ((targets c.fields payload).map Prod.snd).Nodup := nodup_targets c.fields.nodup
  obtain ⟨sealed, after, hrun, hreplaced, hdrawn⟩ := exists_sealed_prefix cipher c scope hnodup
    (fun _ htarget => (mem_targets.1 htarget).2.2) hsecret
  have hwhole : sealable = fields ↔ ∀ target ∈ fields, fits payload target :=
    List.takeWhile_eq_self_iff
  have hdraws : after.drawn = v.drawn + min fields.length (sealable.length + 1) := hdrawn
  rw [← forEachField_eq_visitTargets] at hrun
  refine ⟨sealed, _, after, hrun, fun path location => mem_targets, hnodup, hreplaced, ?_, ?_⟩
  · intro hall
    refine ⟨hwhole.2 hall, if_pos (List.all_eq_true.2 hall), ?_⟩
    rw [hdraws, hwhole.2 hall, Nat.min_eq_left (Nat.le_succ _)]
  · rintro ⟨target, htarget, hlong⟩
    have hne : sealable ≠ fields := fun heq => hlong (hwhole.1 heq target htarget)
    have hfront : sealable <+: fields := List.takeWhile_prefix _
    have hlt : sealable.length < fields.length :=
      Nat.lt_of_le_of_ne hfront.length_le fun heq => hne (hfront.eq_of_length heq)
    refine ⟨hne, if_neg fun hall => hlong (List.all_eq_true.1 hall target htarget), ?_⟩
    rw [hdraws, Nat.min_eq_right hlt]

/-- A name and the items of an array are sealed with three draws, the name first. -/
theorem three_fields_sealed :
    let c : Collection := .new "Person" ["tags[]", "name"]
    let v : Vault := { Vault.ofTexts ["k"] with
      nonces := fun i => ⟨Bytes.ofNat 12 i, Bytes.length_ofNat 12 i⟩ }
    let payload : Json := .obj [("name", .str "Ann"), ("tags", .arr [.str "a", .str "b"])]
    v.contents? 0 = some (.text "k") ∧ (∀ target ∈ targets c.fields payload, fits payload target) ∧
    ∃ sealed after, (c.sealDocument .standard 0 0 payload).run v = ((sealed, .ok 3), after) ∧
      after.drawn = 3 ∧
      ∃ name first second,
        sealed.textAt? [.member "name"] = some name ∧
        sealed.textAt? [.member "tags", .item 0] = some first ∧
        sealed.textAt? [.member "tags", .item 1] = some second ∧
        c.SealedAs .standard "k" (v.nonces 0) "name" "Ann" name ∧
        c.SealedAs .standard "k" (v.nonces 1) "tags[]" "a" first ∧
        c.SealedAs .standard "k" (v.nonces 2) "tags[]" "b" second := by
  intro c v payload
  have hfields : targets c.fields payload = [("name", [.member "name"]),
      ("tags[]", [.member "tags", .item 0]), ("tags[]", [.member "tags", .item 1])] := rfl
  have hall : ∀ target ∈ targets c.fields payload, fits payload target := by
    rw [hfields]
    decide
  obtain ⟨sealed, result, after, hrun, -, -, hreplaced, hcomplete, -⟩ :=
    fields_sealed_one_by_one .standard c 0 (rfl : v.contents? 0 = some (.text "k")) payload
  obtain ⟨hwhole, rfl, hdrawn⟩ := hcomplete hall
  rw [hwhole, hfields] at hreplaced
  obtain ⟨name, hname, hsealedName⟩ := hreplaced.texts 0 _ _ "Ann" rfl rfl
  obtain ⟨first, hfirst, hsealedFirst⟩ := hreplaced.texts 1 _ _ "a" rfl rfl
  obtain ⟨second, hsecond, hsealedSecond⟩ := hreplaced.texts 2 _ _ "b" rfl rfl
  exact ⟨rfl, hall, sealed, after, hrun, hdrawn, name, first, second, hname, hfirst, hsecond,
    hsealedName, hsealedFirst, hsealedSecond⟩

end FieldVault.Document
