import FieldVault.Http.Exchange
import FieldVault.Http.Route
import FieldVault.Proofs.Bytes
import FieldVault.Proofs.Uuid
import Mathlib.Data.List.TakeWhile

/-!
# The targets of documents

A part of a path without a percent sign stands for itself (`decodePart?_of_notMem`). The path
`/documents/part` is that of a collection, and `/documents/part/id` that of one of its documents,
if the parts have no character in them that ends a part (`ofTarget?_store`, `ofTarget?_fetch`). The
text of an identifier is such a part.
-/

set_option autoImplicit false

namespace FieldVault.Http

/-! ### Parts without escapes -/

/-- Bytes without a percent sign stay. -/
theorem percentDecode_of_notMem {bytes : Bytes} (h : 0x25 ∉ bytes) :
    percentDecode bytes = bytes := by
  induction bytes with
  | nil => rfl
  | cons b rest ih =>
    rw [List.mem_cons, not_or] at h
    rw [percentDecode, ih h.2]
    rintro high low after hb -
    exact h.1 hb.symm

/-- The UTF-8 form of another character has no byte of the percent sign in it. -/
theorem notMem_utf8EncodeChar {c : Char} (h : c ≠ '%') : 0x25 ∉ String.utf8EncodeChar c :=
  fun hmem => h (Char.toNat_inj.1 (Bytes.toNat_eq_of_mem_utf8EncodeChar (by decide) hmem))

theorem notMem_ofText {text : String} (h : '%' ∉ text.toList) : 0x25 ∉ Bytes.ofText text := by
  rw [Bytes.ofText_eq_flatMap, List.mem_flatMap]
  rintro ⟨c, hc, hbyte⟩
  have hne : c ≠ '%' := by
    rintro rfl
    exact h hc
  exact notMem_utf8EncodeChar hne hbyte

/-- A part of a path without a percent sign stands for itself. -/
theorem decodePart?_of_notMem {part : String} (h : '%' ∉ part.toList) :
    decodePart? part = some part := by
  rw [decodePart?, percentDecode_of_notMem (notMem_ofText h), Bytes.toText_ofText]

/-! ### Paths of parts -/

/-- A text that can stand between two slashes of a target. -/
def IsPart (part : List Char) : Prop := ∀ c ∈ part, c ≠ '/' ∧ c ≠ '?' ∧ c ≠ '#'

namespace Route

theorem splitAtSlashes_of_isPart {part : List Char} (h : IsPart part) :
    splitAtSlashes part = [part] := by
  induction part with
  | nil => rfl
  | cons c rest ih =>
    obtain ⟨hc, hrest⟩ := List.forall_mem_cons.1 h
    rw [splitAtSlashes, if_neg hc.1, ih hrest]

theorem splitAtSlashes_append {part : List Char} (h : IsPart part) (rest : List Char) :
    splitAtSlashes (part ++ '/' :: rest) = part :: splitAtSlashes rest := by
  induction part with
  | nil => rfl
  | cons c part ih =>
    obtain ⟨hc, hpart⟩ := List.forall_mem_cons.1 h
    rw [List.cons_append, splitAtSlashes, if_neg hc.1, ih hpart]

/-- A target without query and fragment is its own path. -/
theorem pathOf_of_forall {target : String} {rest : List Char}
    (htarget : target.toList = '/' :: rest) (h : ∀ c ∈ rest, c ≠ '?' ∧ c ≠ '#') :
    pathOf target = '/' :: rest := by
  have hall : ∀ c ∈ '/' :: rest, (c ≠ '?' && c ≠ '#') = true := by
    intro c hc
    rcases List.mem_cons.1 hc with rfl | hrest
    · decide
    · simp [h c hrest]
  rw [pathOf, htarget]
  exact List.takeWhile_eq_self_iff.2 hall

/-- A target of slashes and parts has the route of the parts. -/
theorem ofTarget?_of_parts {target : String} {rest : List Char} {parts : List String}
    (htarget : target.toList = '/' :: rest) (h : ∀ c ∈ rest, c ≠ '?' ∧ c ≠ '#')
    (hparts : (splitAtSlashes rest).map String.ofList = parts) :
    ofTarget? target = ofParts? ("" :: parts) := by
  rw [ofTarget?, pathOf_of_forall htarget h, splitAtSlashes, if_pos rfl, List.map_cons, hparts]

theorem isPart_documents : IsPart "documents".toList := by
  simp [IsPart]

/-- The target of a collection. -/
theorem ofTarget?_store {part : String} (hpart : IsPart part.toList) (hne : part ≠ "") :
    ofTarget? ("/documents/" ++ part) = some (.store part) := by
  have htarget : ("/documents/" ++ part).toList =
      '/' :: ("documents".toList ++ '/' :: part.toList) := String.toList_append
  rw [ofTarget?_of_parts htarget ?_ rfl]
  · rw [splitAtSlashes_append isPart_documents, splitAtSlashes_of_isPart hpart]
    simp only [List.map_cons, List.map_nil, String.ofList_toList, ofParts?, if_neg hne]
  · intro c hc
    rcases List.mem_append.1 hc with hdocuments | hrest
    · exact (isPart_documents c hdocuments).2
    · rcases List.mem_cons.1 hrest with rfl | hrest
      · decide
      · exact (hpart c hrest).2

/-- The target of a document. -/
theorem ofTarget?_fetch {part id : String} (hpart : IsPart part.toList) (hid : IsPart id.toList)
    (hne : id ≠ "") : ofTarget? ("/documents/" ++ part ++ "/" ++ id) = some (.fetch part id) := by
  have htarget : ("/documents/" ++ part ++ "/" ++ id).toList =
      '/' :: ("documents".toList ++ '/' :: (part.toList ++ '/' :: id.toList)) := by
    rw [String.toList_append, String.toList_append, String.toList_append]
    simp
  rw [ofTarget?_of_parts htarget ?_ rfl]
  · rw [splitAtSlashes_append isPart_documents, splitAtSlashes_append hpart,
      splitAtSlashes_of_isPart hid]
    simp only [List.map_cons, List.map_nil, String.ofList_toList, ofParts?, if_neg hne]
  · intro c hc
    rcases List.mem_append.1 hc with hdocuments | hrest
    · exact (isPart_documents c hdocuments).2
    · rcases List.mem_cons.1 hrest with rfl | hrest
      · decide
      · rcases List.mem_append.1 hrest with hfirst | hrest
        · exact (hpart c hfirst).2
        · rcases List.mem_cons.1 hrest with rfl | hrest
          · decide
          · exact (hid c hrest).2

end Route

/-! ### Identifiers in targets -/

theorem digitChar_plain : ∀ d, d < 16 → Nat.digitChar d ≠ '%' ∧ Nat.digitChar d ≠ '/' ∧
    Nat.digitChar d ≠ '?' ∧ Nat.digitChar d ≠ '#' := by
  decide

theorem mem_toText_plain {id : Uuid} {c : Char} (h : c ∈ id.toText.toList) :
    c ≠ '%' ∧ c ≠ '/' ∧ c ≠ '?' ∧ c ≠ '#' := by
  rcases id.mem_toText h with ⟨d, hd, rfl⟩ | rfl
  · exact digitChar_plain d hd
  · decide

/-- The text of an identifier is a part of a target. -/
theorem isPart_toText (id : Uuid) : IsPart id.toText.toList :=
  fun _ hc => (mem_toText_plain hc).2

/-- The text of an identifier stands for itself in a target. -/
theorem decodePart?_toText (id : Uuid) : decodePart? id.toText = some id.toText :=
  decodePart?_of_notMem fun h => (mem_toText_plain h).1 rfl

end FieldVault.Http
