import FieldVault.Proofs.Document.Frame

/-!
# Sealed documents

The relation `Sealed` says when one document is another one with the texts of some targets sealed,
each under the context of the path that leads to it. Sealing a document whose texts are within the
limit gives a sealed document (`Collection.exists_sealed_document`), and opening a sealed document
gives the document back (`openDocument_of_sealed`). Both touch nothing that was in the vault
before, apart from tracking the secret, and report nothing. Hence opening undoes sealing, whatever
the paths are (`opening_restores_sealed_document`).
-/

set_option autoImplicit false

namespace FieldVault.Document

open Json Vault
open Wipe (ValueId)

/-- A document whose texts can all be sealed. -/
def WithinLimit (document : Json) : Prop :=
  document.AllTexts fun text => (Bytes.ofText text).length ≤ Gcm.plaintextLimit

/-- The second document is the first one with the texts of the targets sealed: `seals path text e`
says that `e` is a sealed form of a text that the path leads to. -/
inductive Sealed (seals : String → String → String → Prop) : List Target → Json → Json → Prop where
  | none (document : Json) : Sealed seals [] document document
  | target {path : String} {location : Location} {rest : List Target} {document sealed : Json}
      {text envelope : String} (fresh : location ∉ rest.map Prod.snd)
      (found : document.textAt? location = some text) (made : seals path text envelope)
      (others : Sealed seals rest document sealed) :
      Sealed seals ((path, location) :: rest) document (sealed.setText location envelope)

namespace Sealed

variable {seals : String → String → String → Prop} {list : List Target} {document sealed : Json}

/-- Texts that are no targets stay. -/
theorem textAt?_of_notMem (h : Sealed seals list document sealed) {location : Location}
    (hnot : location ∉ list.map Prod.snd) :
    sealed.textAt? location = document.textAt? location := by
  induction h with
  | none document => rfl
  | target fresh found made others ih =>
    rw [List.map_cons, List.mem_cons, not_or] at hnot
    rw [textAt?_setText_of_ne (Ne.symm hnot.1), ih hnot.2]

/-- The text of a target is a sealed form of the one that stood there. -/
theorem exists_envelope (h : Sealed seals list document sealed) {path text : String}
    {location : Location} (hmem : (path, location) ∈ list)
    (htext : document.textAt? location = some text) :
    ∃ envelope, sealed.textAt? location = some envelope ∧ seals path text envelope := by
  induction h with
  | none document => cases hmem
  | @target _ other rest document sealed _ envelope fresh found made others ih =>
    rcases List.mem_cons.1 hmem with heq | hrest
    · cases heq
      cases found.symm.trans htext
      refine ⟨envelope, textAt?_setText_self ?_, made⟩
      rw [others.textAt?_of_notMem fresh, htext]
      rfl
    · have hne : other ≠ location := by
        rintro rfl
        exact fresh (List.mem_map.2 ⟨_, hrest, rfl⟩)
      obtain ⟨found, hfound, hseals⟩ := ih hrest htext
      exact ⟨found, (textAt?_setText_of_ne hne).trans hfound, hseals⟩

/-- Texts stand where they stood. -/
theorem locations_eq (h : Sealed seals list document sealed) (segments : List Segment) :
    locations segments sealed = locations segments document := by
  induction h with
  | none document => rfl
  | target fresh found made others ih => rw [locations_setText, ih]

end Sealed

/-! ### One field -/

variable (cipher : FieldCipher) {secret : ValueId} {key : String}

/-- The sealed forms of the fields of a collection: a sealed text opens under the context of its
field to the text it was made of, and is longer. -/
def Collection.Seals (c : Collection) (cipher : FieldCipher) (key path text envelope : String) :
    Prop :=
  cipher.openedText key (c.fieldContext path) envelope = .ok text ∧ text.length < envelope.length

/-- A text within the limit is sealed. -/
theorem exists_sealed_field (c : Collection) (scope : ScopeId) {v : Vault}
    (hsecret : v.contents? secret = some (.text key)) (path : String) {text : String}
    (hlimit : (Bytes.ofText text).length ≤ Gcm.plaintextLimit) :
    ∃ envelope after, (c.sealField cipher scope secret path text).run v = (.ok envelope, after) ∧
      c.Seals cipher key path text envelope ∧ after.events = v.events ∧
      Frame v.cells.size scope [secret] v after := by
  obtain ⟨e, hsealed, -, hlength⟩ := FieldCipher.exists_sealed cipher (v.text secret)
    (c.fieldContext path) (v.nonces v.drawn) hlimit
  have hframe := cipher.frame_tryEncryptText scope secret (c.fieldContext path) text v
  rw [Collection.sealField]
  rw [FieldCipher.tryEncryptText_run, hsealed] at hframe ⊢
  rw [text_of_contents? hsecret] at hsealed
  have hlonger : text.length < e.toBase64.length :=
    Envelope.length_lt_length_toBase64 (Nat.le.intro hlength.symm)
  exact ⟨e.toBase64, _, rfl, ⟨FieldCipher.openedText_of_sealed hsealed, hlonger⟩, rfl, hframe⟩

/-! ### Documents -/

/-- The texts of some targets are sealed one after the other. -/
theorem exists_sealed_targets (c : Collection) (scope : ScopeId) {list : List Target}
    {document : Json} (hnodup : (list.map Prod.snd).Nodup)
    (htexts : ∀ target ∈ list, (document.textAt? target.2).isSome)
    (hlimit : WithinLimit document) {v : Vault} (hsecret : v.contents? secret = some (.text key)) :
    ∃ sealed after, (visitTargets (c.sealField cipher scope secret) list document).run v =
        ((sealed, .ok list.length), after) ∧
      Sealed (c.Seals cipher key) list document sealed ∧ after.events = v.events ∧
      Frame v.cells.size scope [secret] v after := by
  induction list generalizing v with
  | nil => exact ⟨document, v, rfl, .none document, rfl, Frame.refl (Nat.le_refl _)⟩
  | cons target rest ih =>
    obtain ⟨path, location⟩ := target
    obtain ⟨hfresh, hrest⟩ := List.nodup_cons.1 hnodup
    obtain ⟨text, hfound⟩ := Option.isSome_iff_exists.1 (htexts _ List.mem_cons_self)
    obtain ⟨envelope, middle, hrun, hseals, hevents, hframe⟩ :=
      exists_sealed_field cipher c scope hsecret path (hlimit location text hfound)
    have hkept : middle.contents? secret = some (.text key) := by
      rw [hframe.contents? (lt_of_contents?_eq_some hsecret), hsecret]
    -- the other targets are sealed as if this one were still as it was
    obtain ⟨sealed, after, hothers, hsealed, heventsRest, hframeRest⟩ :=
      ih hrest (fun target htarget => htexts target (List.mem_cons_of_mem _ htarget)) hkept
    refine ⟨sealed.setText location envelope, after, ?_, .target hfresh hfound hseals hsealed, ?_,
      hframe.trans (hframeRest.mono hframe.size)⟩
    · rw [visitTargets, hfound]
      simp only [run_bind, hrun]
      rw [visitTargets_setText hfresh]
      simp only [run_bind, run_pure] at hothers ⊢
      rw [hothers]
      simp only [Except.map, List.length_cons, Nat.add_comm]
    · rw [heventsRest, hevents]

/-- A document whose texts are within the limit is sealed. -/
theorem Collection.exists_sealed_document (c : Collection) (scope : ScopeId) {document : Json}
    (hlimit : WithinLimit document) {v : Vault} (hsecret : v.contents? secret = some (.text key)) :
    ∃ sealed after, (c.sealDocument cipher scope secret document).run v =
        ((sealed, .ok (targets c.fields document).length), after) ∧
      Sealed (c.Seals cipher key) (targets c.fields document) document sealed ∧
      after.events = v.events ∧ Frame v.cells.size scope [secret] v after := by
  obtain ⟨sealed, after, hrun, hrest⟩ := exists_sealed_targets cipher c scope
    (nodup_targets c.fields.nodup) (fun _ htarget => (mem_targets.1 htarget).2.2) hlimit hsecret
  refine ⟨sealed, after, ?_, hrest⟩
  rw [← hrun, ← forEachField_eq_visitTargets]
  rfl

variable {cipher}

/-- The texts of targets that are sealed are opened one after the other. -/
theorem openTargets_of_sealed (c : Collection) (scope : ScopeId) {list : List Target}
    {document sealed : Json} (h : Sealed (c.Seals cipher key) list document sealed) {v : Vault}
    (hsecret : v.contents? secret = some (.text key)) :
    ∃ after, (visitTargets (c.openField cipher scope secret) list sealed).run v =
        ((document, .ok list.length), after) ∧
      after.events = v.events ∧ Frame v.cells.size scope [secret] v after := by
  induction h generalizing v with
  | none document => exact ⟨v, rfl, rfl, Frame.refl (Nat.le_refl _)⟩
  | @target path location rest document sealed text envelope fresh found made others ih =>
    have hstands : sealed.textAt? location = some text := by
      rw [others.textAt?_of_notMem fresh, found]
    have henvelope : (sealed.setText location envelope).textAt? location = some envelope :=
      textAt?_setText_self (by rw [hstands]; rfl)
    have hback : (sealed.setText location envelope).setText location text = sealed := by
      rw [setText_setText, setText_eq_self hstands]
    obtain ⟨middle, hrun, hevents, hframe⟩ := c.openField_spec cipher scope secret path envelope v
    have hkept : middle.contents? secret = some (.text key) := by
      rw [hframe.contents? (lt_of_contents?_eq_some hsecret), hsecret]
    obtain ⟨after, hothers, heventsRest, hframeRest⟩ := ih hkept
    rw [text_of_contents? hsecret, made.1] at hrun hevents
    refine ⟨after, ?_, ?_, hframe.trans (hframeRest.mono hframe.size)⟩
    · rw [visitTargets, henvelope]
      simp only [run_bind, hrun, FieldCipher.textOrInput, hback, hothers, run_pure]
      simp only [Except.map, List.length_cons, Nat.add_comm]
    · rw [heventsRest, hevents, FieldCipher.reportsOf, List.append_nil]

/-- A sealed document is opened. -/
theorem openDocument_of_sealed {c : Collection} (scope : ScopeId) {document sealed : Json}
    (h : Sealed (c.Seals cipher key) (targets c.fields document) document sealed) {v : Vault}
    (hsecret : v.contents? secret = some (.text key)) :
    ∃ after, (c.openDocument cipher scope secret sealed).run v =
        ((document, (targets c.fields document).length), after) ∧
      after.events = v.events ∧ Frame v.cells.size scope [secret] v after := by
  obtain ⟨after, hrun, hrest⟩ := openTargets_of_sealed c scope h hsecret
  refine ⟨after, ?_, hrest⟩
  rw [Collection.openDocument, forEachField_eq_visitTargets, targets_congr h.locations_eq]
  simp only [run_bind, hrun, run_pure]

/-- Sealing a document in a collection, whatever its entity type and its set of paths, succeeds, and
opening the result with a secret of the same text, in any vault and into any scope, gives the
document back, with the same number of fields and without a report. -/
theorem opening_restores_sealed_document (cipher : FieldCipher) (c : Collection) {payload : Json}
    (hlimit : WithinLimit payload) (scope other : ScopeId) {v w : Vault} {secret opener : ValueId}
    {key : String} (hsecret : v.contents? secret = some (.text key))
    (hopener : w.contents? opener = some (.text key)) :
    ∃ sealed n after opened,
      (c.sealDocument cipher scope secret payload).run v = ((sealed, .ok n), after) ∧
      (c.openDocument cipher other opener sealed).run w = ((payload, n), opened) ∧
      after.events = v.events ∧ opened.events = w.events := by
  obtain ⟨sealed, after, hseal, hsealed, hevents, -⟩ :=
    c.exists_sealed_document cipher scope hlimit hsecret
  obtain ⟨opened, hopen, hopenEvents, -⟩ := openDocument_of_sealed other hsealed hopener
  exact ⟨sealed, _, after, opened, hseal, hopen, hevents, hopenEvents⟩

/-- A name and the items of an array are sealed, and restored with a secret of the same text in
another vault. -/
theorem name_and_tags_restored :
    let c : Collection := .new "Person" ["tags[]", "name"]
    let payload : Json := .obj [("name", .str "Ann"), ("tags", .arr [.str "a", .str "b"])]
    WithinLimit payload ∧
      (Vault.ofTexts ["k"]).contents? 0 = some (.text "k") ∧
      (Vault.ofTexts ["", "k"]).contents? 1 = some (.text "k") ∧
      ∃ sealed n after opened,
        (c.sealDocument .standard 0 0 payload).run (Vault.ofTexts ["k"]) =
          ((sealed, .ok n), after) ∧
        (c.openDocument .standard 0 1 sealed).run (Vault.ofTexts ["", "k"]) =
          ((payload, n), opened) ∧
        after.events = [] ∧ opened.events = [] := by
  intro c payload
  have htags : WithinLimit (.arr [.str "a", .str "b"]) :=
    allTexts_arr (List.forall_mem_cons.2
      ⟨allTexts_str (by decide), List.forall_mem_singleton.2 (allTexts_str (by decide))⟩)
  have hlimit : WithinLimit payload :=
    allTexts_obj (List.forall_mem_cons.2
      ⟨allTexts_str (by decide), List.forall_mem_singleton.2 htags⟩)
  exact ⟨hlimit, rfl, rfl, opening_restores_sealed_document .standard c hlimit 0 0 rfl rfl⟩

end FieldVault.Document
