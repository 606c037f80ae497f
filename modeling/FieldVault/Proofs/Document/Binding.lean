import FieldVault.Proofs.Cipher.Separation
import FieldVault.Proofs.Document.Sealing

/-!
# Which field an envelope belongs to

The context of a field is the entity type, a point and the path, and points may stand in both
parts. Two different fields have the same context exactly if the name of one entity is the name of
the other one continued into the path (`fieldContext_eq_iff`), as with the path `a.b` in `E` and the
path `b` in `E.a`, and then what is sealed for one field is opened for the other. Fields with
different contexts have different keys, unless the contexts fill the hash block of the derivation
alike or two different hashed strings have the same digest (`fields_bound_unless_continued`).
-/

set_option autoImplicit false

namespace FieldVault.Document

open Vault
open Wipe (ValueId)

/-- The name of the second entity is that of the first one continued, after a point, by the first
part of the path, and the path in the second entity is the rest of it. -/
def Continues (entity path inner rest : String) : Prop :=
  ∃ part, inner = entity ++ "." ++ part ∧ path = part ++ "." ++ rest

namespace Continues

/-- The two fields read the same. -/
theorem join_eq {entity path inner rest : String} (h : Continues entity path inner rest) :
    entity ++ "." ++ path = inner ++ "." ++ rest := by
  obtain ⟨part, rfl, rfl⟩ := h
  simp only [String.append_assoc]

/-- A path that starts with what the name of the other entity has more continues it. -/
theorem of_toList {entity path inner rest : String} {more : List Char}
    (hinner : inner.toList = entity.toList ++ '.' :: more)
    (hpath : path.toList = more ++ '.' :: rest.toList) : Continues entity path inner rest := by
  refine ⟨String.ofList more, String.toList_injective ?_, String.toList_injective ?_⟩
  · simp only [hinner, String.toList_append, List.append_assoc, String.toList_ofList]
    rfl
  · simp only [hpath, String.toList_append, List.append_assoc, String.toList_ofList]
    rfl

end Continues

/-- Two pairs of texts read the same with a point between them exactly if they are equal or one
continues the other. -/
theorem join_eq_iff {entity path entity' path' : String} :
    entity ++ "." ++ path = entity' ++ "." ++ path' ↔
      (entity, path) = (entity', path') ∨ Continues entity path entity' path' ∨
        Continues entity' path' entity path := by
  constructor
  · intro h
    have hchars : entity.toList ++ '.' :: path.toList = entity'.toList ++ '.' :: path'.toList := by
      have hlist := congrArg String.toList h
      simp only [String.toList_append, List.append_assoc] at hlist
      exact hlist
    -- the longer of the two first parts goes on in the other second part
    rcases List.append_eq_append_iff.1 hchars with ⟨more, hfirst, hsecond⟩ | ⟨more, hfirst, hsecond⟩
    · cases more with
      | nil =>
        rw [List.append_nil] at hfirst
        rw [String.toList_injective hfirst, String.toList_injective (List.cons.inj hsecond).2]
        exact .inl rfl
      | cons point more =>
        obtain ⟨rfl, hpath⟩ := List.cons.inj hsecond
        exact .inr (.inl (.of_toList hfirst hpath))
    · cases more with
      | nil =>
        rw [List.append_nil] at hfirst
        rw [String.toList_injective hfirst, String.toList_injective (List.cons.inj hsecond).2]
        exact .inl rfl
      | cons point more =>
        obtain ⟨rfl, hpath⟩ := List.cons.inj hsecond
        exact .inr (.inr (.of_toList hfirst hpath))
  · rintro (h | h | h)
    · obtain ⟨rfl, rfl⟩ := Prod.mk.inj h
      rfl
    · exact h.join_eq
    · exact h.join_eq.symm

variable {c d : Collection} {path path' : String}

/-- Two fields have the same context exactly if they are the same field or one continues the
other. -/
theorem fieldContext_eq_iff :
    c.fieldContext path = d.fieldContext path' ↔
      (c.entity, path) = (d.entity, path') ∨ Continues c.entity path d.entity path' ∨
        Continues d.entity path' c.entity path :=
  join_eq_iff

/-- What is sealed for a field is opened for any other field with the same context. -/
theorem opened_of_fieldContext_eq (cipher : FieldCipher)
    (hcontext : c.fieldContext path = d.fieldContext path') (scope other : ScopeId) {v w : Vault}
    {secret opener : ValueId} (hsecret : w.text opener = v.text secret) {text : String}
    (hlimit : (Bytes.ofText text).length ≤ Gcm.plaintextLimit) :
    ∃ envelope, ((c.sealField cipher scope secret path text).run v).1 = .ok envelope ∧
      ((d.openField cipher other opener path' envelope).run w).1 = .ok text := by
  obtain ⟨e, hsealed, -, -⟩ := FieldCipher.exists_sealed cipher (v.text secret)
    (c.fieldContext path) (v.nonces v.drawn) hlimit
  refine ⟨e.toBase64, ?_, ?_⟩
  · rw [Collection.sealField, FieldCipher.tryEncryptText_run, hsealed]
    rfl
  · obtain ⟨after, hrun, -, -⟩ := d.openField_spec cipher other opener path' e.toBase64 w
    rw [hrun, hsecret, ← hcontext, FieldCipher.openedText_of_sealed hsealed]
    rfl

/-- Two different fields have the same context exactly if one continues the other, and then what is
sealed for the first one is opened for the second one. In any case they have the same key only if
their contexts fill the hash block alike or two different strings hashed in the two derivations have
the same digest. -/
theorem fields_bound_unless_continued (cipher : FieldCipher)
    (hne : (c.entity, path) ≠ (d.entity, path')) :
    (c.fieldContext path = d.fieldContext path' ↔
      Continues c.entity path d.entity path' ∨ Continues d.entity path' c.entity path) ∧
    (Continues c.entity path d.entity path' ∨ Continues d.entity path' c.entity path →
      ∀ (scope other : ScopeId) (v w : Vault) (secret opener : ValueId),
        w.text opener = v.text secret → ∀ text : String,
        (Bytes.ofText text).length ≤ Gcm.plaintextLimit →
        ∃ envelope, ((c.sealField cipher scope secret path text).run v).1 = .ok envelope ∧
          ((d.openField cipher other opener path' envelope).run w).1 = .ok text) ∧
    (∀ secret : String,
      cipher.fieldKey secret (c.fieldContext path) = cipher.fieldKey secret (d.fieldContext path') →
      Hmac.blockKey (Bytes.ofText (c.fieldContext path)) =
          Hmac.blockKey (Bytes.ofText (d.fieldContext path')) ∨
        Sha2.Collide
          (Cipher.hashedIn (Bytes.ofText secret) (c.fieldContext path) cipher.label ++
            Cipher.hashedIn (Bytes.ofText secret) (d.fieldContext path') cipher.label)) := by
  have hiff : c.fieldContext path = d.fieldContext path' ↔
      Continues c.entity path d.entity path' ∨ Continues d.entity path' c.entity path :=
    fieldContext_eq_iff.trans (or_iff_right hne)
  refine ⟨hiff, ?_, ?_⟩
  · intro hcontinues scope other v w secret opener hsecret text hlimit
    exact opened_of_fieldContext_eq cipher (hiff.2 hcontinues) scope other hsecret hlimit
  · intro secret hkey
    by_cases hfree : Sha2.Collide
        (Cipher.hashedIn (Bytes.ofText secret) (c.fieldContext path) cipher.label ++
          Cipher.hashedIn (Bytes.ofText secret) (d.fieldContext path') cipher.label)
    · exact .inr hfree
    · have hderived := congrArg (fun key => some (Aes.Key.bytes key)) hkey
      simp only [← FieldCipher.deriveKey?_eq_fieldKey] at hderived
      exact .inl (Cipher.inputs_of_key_eq hfree hderived).1

/-- A card number of a customer is opened as the number of a `Customer.card`. -/
theorem card_number_opened_as_number :
    ("Customer", "card.number") ≠ ("Customer.card", "number") ∧
      Continues "Customer" "card.number" "Customer.card" "number" ∧
      (Bytes.ofText "4242").length ≤ Gcm.plaintextLimit ∧
      ∃ envelope,
        (((Collection.new "Customer" ["card.number"]).sealField .standard 0 0 "card.number"
          "4242").run (Vault.ofTexts ["k"])).1 = .ok envelope ∧
        (((Collection.new "Customer.card" ["number"]).openField .standard 0 1 "number"
          envelope).run (Vault.ofTexts ["", "k"])).1 = .ok "4242" := by
  have hne : ("Customer", "card.number") ≠ ("Customer.card", "number") := by decide
  have hcontinues : Continues "Customer" "card.number" "Customer.card" "number" :=
    ⟨"card", by decide, by decide⟩
  have hlimit : (Bytes.ofText "4242").length ≤ Gcm.plaintextLimit := by decide +kernel
  exact ⟨hne, hcontinues, hlimit,
    (fields_bound_unless_continued (c := .new "Customer" ["card.number"])
      (d := .new "Customer.card" ["number"]) .standard hne).2.1 (.inl hcontinues) 0 0
      (Vault.ofTexts ["k"]) (Vault.ofTexts ["", "k"]) 0 1 rfl "4242" hlimit⟩

/-- The field `b` of the entity `E.a` and the field `a.b` of the entity `E` have one context, and an
envelope of the one is opened as the other. -/
theorem dotted_entity_shares_context :
    let c : Collection := .new "E.a" ["b"]
    let d : Collection := .new "E" ["a.b"]
    c.entity ≠ "" ∧ d.entity ≠ "" ∧ "b" ∈ c.fields ∧ "a.b" ∈ d.fields ∧
      (c.entity, "b") ≠ (d.entity, "a.b") ∧ c.fieldContext "b" = d.fieldContext "a.b" ∧
      ∃ envelope,
        ((c.sealField .standard 0 0 "b" "x").run (Vault.ofTexts ["k"])).1 = .ok envelope ∧
        ((d.openField .standard 0 0 "a.b" envelope).run (Vault.ofTexts ["k"])).1 = .ok "x" := by
  intro c d
  have hcontext : c.fieldContext "b" = d.fieldContext "a.b" := by decide
  exact ⟨by decide, by decide, PathSet.mem_ofList.2 List.mem_cons_self,
    PathSet.mem_ofList.2 List.mem_cons_self, by decide, hcontext,
    opened_of_fieldContext_eq .standard hcontext 0 0 rfl (by decide +kernel)⟩

end FieldVault.Document
