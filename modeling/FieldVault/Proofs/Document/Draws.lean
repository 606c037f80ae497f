import FieldVault.Proofs.Document.SealedFields
import FieldVault.Proofs.Document.Sealing

/-!
# Nonces of documents

Sealing a document draws one nonce for each field it encrypts, in the order in which the fields are
visited, and the new text of a field is an envelope that starts with the nonce drawn for it. So the
envelopes can be read off the document: they are the texts of fields that have changed
(`Collection.fieldLog`). One more nonce goes to waste if a field is longer than AES-GCM allows,
which ends the visit. Opening a document draws none.
-/

set_option autoImplicit false

namespace FieldVault.Document

open Json Vault
open Wipe (ValueId)

/-! ### Changed texts -/

/-- What the texts of some targets tell of the nonces drawn for them: an entry for each one that has
changed. -/
def changes (list : List Target) (before after : Json) : DrawLog :=
  list.filterMap fun target =>
    if after.textAt? target.2 = before.textAt? target.2 then none
    else some ((after.textAt? target.2).bind Envelope.inText?)

/-- A visit that fails has drawn one more nonce. -/
def failureLog : Except Cipher.Fault Nat → DrawLog
  | .ok _ => []
  | .error _ => [none]

section

variable {list : List Target} {before after document : Json} {path : String} {location : Location}

theorem changes_congr (h : ∀ target ∈ list, after.textAt? target.2 = document.textAt? target.2) :
    changes list before after = changes list before document := by
  apply List.filterMap_congr
  intro target htarget
  rw [h target htarget]

theorem changes_self (list : List Target) (document : Json) : changes list document document = [] :=
  List.filterMap_eq_nil_iff.2 fun _ _ => if_pos rfl

/-- A target whose text has changed is the first one of the log. -/
theorem changes_cons_of_ne {text : String} (htext : after.textAt? location = some text)
    (hne : before.textAt? location ≠ some text) :
    changes ((path, location) :: list) before after =
      Envelope.inText? text :: changes list before after := by
  refine List.filterMap_cons_some ?_
  dsimp only
  rw [htext, if_neg hne.symm]
  rfl

end

/-! ### Sealing -/

theorem fits_of_withinLimit {document : Json} (h : WithinLimit document) (target : Target) :
    fits document target = true := by
  rw [fits, Option.all_eq_true]
  intro text htext
  exact decide_eq_true (h target.2 text htext)

/-- What is left of sealing the texts of some targets of a document, in the document and in the
vault. -/
structure SealLog (list : List Target) (document : Json) (v : Vault)
    (outcome : (Json × Except Cipher.Fault Nat) × Vault) : Prop where
  /-- Texts that are no targets stay. -/
  kept : ∀ location, location ∉ list.map Prod.snd →
    outcome.1.1.textAt? location = document.textAt? location
  /-- The nonces drawn are those of the texts that have changed. -/
  draws : Draws (changes list document outcome.1.1 ++ failureLog outcome.1.2) v outcome.2
  /-- A text that has changed is an envelope. -/
  envelopes : ∀ entry ∈ changes list document outcome.1.1, entry.isSome
  /-- The visit fails just if a text is too long. -/
  failure : failureLog outcome.1.2 = if list.all (fits document) then [] else [none]

namespace SealLog

variable {list : List Target} {document : Json} {path text : String} {location : Location}
  {v middle w : Vault}

/-- A text that is too long ends the visit with the nonce drawn for it. -/
theorem fault (hdraw : Draws [none] v middle) (hlong : list.all (fits document) = false)
    (fault : Cipher.Fault) : SealLog list document v ((document, .error fault), middle) := by
  have hchanges := changes_self list document
  refine ⟨fun _ _ => rfl, ?_, ?_, ?_⟩
  · dsimp only
    rw [hchanges]
    exact hdraw
  · dsimp only
    rw [hchanges]
    exact List.forall_mem_nil _
  · rw [hlong]
    rfl

/-- A text that is sealed puts its envelope in front of those of the other targets. -/
theorem cons {e : Envelope} {sealed : Json} {result : Except Cipher.Fault Nat}
    (hfresh : location ∉ list.map Prod.snd) (hfound : document.textAt? location = some text)
    (hfits : fits document (path, location) = true)
    (hroom : Gcm.tagBytes ≤ e.ciphertext.length) (hlonger : text.length < e.toBase64.length)
    (hdraw : Draws [some e.toBytes] v middle)
    (others : SealLog list document middle ((sealed, result), w)) :
    SealLog ((path, location) :: list) document v
      ((sealed.setText location e.toBase64, result.map (1 + ·)), w) := by
  obtain ⟨hkept, hdraws, henvelopes, hfailed⟩ := others
  dsimp only at hkept hdraws henvelopes hfailed
  have hnew : (sealed.setText location e.toBase64).textAt? location = some e.toBase64 := by
    refine textAt?_setText_self ?_
    rw [hkept location hfresh, hfound]
    rfl
  -- an envelope is longer than its text
  have hne : document.textAt? location ≠ some e.toBase64 := by
    rw [hfound]
    intro heq
    rw [Option.some.inj heq] at hlonger
    exact Nat.lt_irrefl _ hlonger
  have hsame : changes list document (sealed.setText location e.toBase64) =
      changes list document sealed := by
    refine changes_congr fun target htarget => textAt?_setText_of_ne ?_
    rintro rfl
    exact hfresh (List.mem_map.2 ⟨_, htarget, rfl⟩)
  have hchanges : changes ((path, location) :: list) document
      (sealed.setText location e.toBase64) = some e.toBytes :: changes list document sealed := by
    rw [changes_cons_of_ne hnew hne, hsame, Envelope.inText?_toBase64 hroom]
  have hfailure : failureLog (result.map (1 + ·)) = failureLog result := by
    cases result <;> rfl
  refine ⟨fun other hother => ?_, ?_, ?_, ?_⟩
  · rw [List.map_cons, List.mem_cons, not_or] at hother
    rw [textAt?_setText_of_ne (Ne.symm hother.1), hkept other hother.2]
  · have hboth := hdraw.trans hdraws
    dsimp only
    rw [hchanges, hfailure]
    exact hboth
  · dsimp only
    rw [hchanges]
    exact List.forall_mem_cons.2 ⟨rfl, henvelopes⟩
  · rw [List.all_cons, hfits, Bool.true_and, ← hfailed]
    exact hfailure

/-- Texts within the limit do not fail. -/
theorem complete {outcome : (Json × Except Cipher.Fault Nat) × Vault}
    (h : SealLog list document v outcome) (hlimit : WithinLimit document) :
    failureLog outcome.1.2 = [] := by
  rw [h.failure, if_pos (List.all_eq_true.2 fun target _ => fits_of_withinLimit hlimit target)]

end SealLog

namespace Collection

variable (c : Collection) (cipher : FieldCipher) (scope : ScopeId) (secret : ValueId)

/-- The texts of targets are sealed one after the other, each with the next nonce. -/
theorem sealLog_sealTargets {list : List Target} {document : Json}
    (hnodup : (list.map Prod.snd).Nodup)
    (htexts : ∀ target ∈ list, (document.textAt? target.2).isSome) (v : Vault) :
    SealLog list document v
      ((visitTargets (c.sealField cipher scope secret) list document).run v) := by
  induction list generalizing v with
  | nil => exact ⟨fun _ _ => rfl, .refl v, List.forall_mem_nil _, rfl⟩
  | cons target rest ih =>
    obtain ⟨path, location⟩ := target
    obtain ⟨hfresh, hrest⟩ := List.nodup_cons.1 hnodup
    obtain ⟨text, hfound⟩ := Option.isSome_iff_exists.1 (htexts _ List.mem_cons_self)
    have hfits : fits document (path, location) = _ := fits_eq_decide hfound
    have hdraw := cipher.draws_nextEnvelope scope secret (c.fieldContext path) v (Bytes.ofText text)
    rw [visitTargets, hfound]
    simp only [run_bind, sealField]
    rw [FieldCipher.tryEncryptText_run]
    rw [FieldCipher.nextEnvelope] at hdraw
    generalize (v.spendKey scope secret).afterDraw = middle at hdraw ⊢
    rcases Nat.lt_or_ge Gcm.plaintextLimit (Bytes.ofText text).length with hlong | hlimit
    · rw [decide_eq_false (Nat.not_le_of_lt hlong)] at hfits
      have hsealed := cipher.sealed_of_lt (v.text secret) (c.fieldContext path)
        (v.nonces v.drawn) hlong
      rw [hsealed] at hdraw ⊢
      refine .fault hdraw ?_ .aeadFailure
      rw [List.all_cons, hfits, Bool.false_and]
    · rw [decide_eq_true hlimit] at hfits
      obtain ⟨e, hsealed, -, hlength⟩ := cipher.exists_sealed (v.text secret) (c.fieldContext path)
        (v.nonces v.drawn) hlimit
      rw [hsealed] at hdraw ⊢
      have hlonger : text.length < e.toBase64.length :=
        Envelope.length_lt_length_toBase64 (Nat.le.intro hlength.symm)
      -- the other targets are sealed as if this one were still as it was
      have hothers := ih hrest
        (fun target htarget => htexts target (List.mem_cons_of_mem _ htarget)) middle
      simp only [Except.map, run_bind]
      rw [visitTargets_setText hfresh]
      simp only [run_bind, run_pure]
      exact .cons hfresh hfound hfits (FieldCipher.tagBytes_le_of_sealed hsealed) hlonger hdraw
        hothers

/-- What the fields of a document tell of the nonces drawn to seal it. -/
def fieldLog (before after : Json) : DrawLog := changes (targets c.fields before) before after

/-- Sealing a document draws the nonces of the fields that it changes, in the order of the visit. -/
theorem sealLog_sealDocument (document : Json) (v : Vault) :
    SealLog (targets c.fields document) document v
      ((c.sealDocument cipher scope secret document).run v) := by
  have hnodup : ((targets c.fields document).map Prod.snd).Nodup := nodup_targets c.fields.nodup
  have h := c.sealLog_sealTargets cipher scope secret hnodup
    (fun _ htarget => (mem_targets.1 htarget).2.2) v
  rwa [← forEachField_eq_visitTargets] at h

/-- Sealing a document fails just if a field is too long. -/
theorem sealDocument_fails_iff (document : Json) (v : Vault) :
    (∃ fault, ((c.sealDocument cipher scope secret document).run v).1.2 = .error fault) ↔
      (targets c.fields document).all (fits document) = false := by
  have hfailure := (c.sealLog_sealDocument cipher scope secret document v).failure
  -- the result and the lengths of the fields leave the same mark at the end of the log
  cases hresult : ((c.sealDocument cipher scope secret document).run v).1.2 with
  | error fault =>
    rw [hresult] at hfailure
    cases hall : (targets c.fields document).all (fits document) with
    | false => simp
    | true =>
      rw [hall] at hfailure
      cases hfailure
  | ok n =>
    rw [hresult] at hfailure
    cases hall : (targets c.fields document).all (fits document) with
    | false =>
      rw [hall] at hfailure
      cases hfailure
    | true => simp

/-! ### Opening -/

/-- Opening a field draws no nonce. -/
theorem draws_openField (path leaf : String) (v : Vault) :
    Draws [] v ((c.openField cipher scope secret path leaf).run v).2 := by
  have hopened := cipher.draws_decryptText scope secret (c.fieldContext path) v leaf
  exact hopened.trans (.none_of_eq rfl rfl)

/-- A visitor that draws no nonce makes a visit that draws none. -/
theorem draws_visitTargets {ε : Type} {visitor : String → String → VaultM (Except ε String)}
    (hvisitor : ∀ path leaf v, Draws [] v ((visitor path leaf).run v).2) (list : List Target)
    (document : Json) (v : Vault) :
    Draws [] v ((visitTargets visitor list document).run v).2 := by
  induction list generalizing document v with
  | nil => exact .refl v
  | cons target rest ih =>
    obtain ⟨path, location⟩ := target
    rw [visitTargets]
    cases document.textAt? location with
    | none => exact ih document v
    | some text =>
      have hstep := hvisitor path text v
      simp only [run_bind]
      generalize (visitor path text).run v = result at hstep ⊢
      obtain ⟨e | new, middle⟩ := result
      · exact hstep
      · exact hstep.trans (ih _ _)

/-- Opening a document draws no nonce. -/
theorem draws_openDocument (document : Json) (v : Vault) :
    Draws [] v ((c.openDocument cipher scope secret document).run v).2 := by
  have hvisit := draws_visitTargets (c.draws_openField cipher scope secret)
    (targets c.fields document) document v
  rw [← forEachField_eq_visitTargets] at hvisit
  rw [openDocument]
  simp only [run_bind]
  generalize (forEachField (c.openField cipher scope secret) c.fields document).run v = result
    at hvisit ⊢
  -- a field that does not open stays as it is, so the visit does not fail
  obtain ⟨⟨opened, never | n⟩, after⟩ := result
  · exact never.elim
  · exact hvisit

end Collection

end FieldVault.Document
