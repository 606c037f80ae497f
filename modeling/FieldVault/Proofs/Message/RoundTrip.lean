import FieldVault.Proofs.Json.Members

/-!
# Messages are read back

A message is written as an object with a member for each field, and it is read back from this text,
from its members in any other order, and from a text with members it does not know
(`Lawful.roundTrips`). All that a type of messages has to bring along is that its fields have
different names, and that the values of a message are of the types of the fields and make up the
message again (`Lawful`).
-/

set_option autoImplicit false

namespace FieldVault.Message

open Json (Fields FieldValue IsForeign Plain)

/-- Every value of a message is one that its field can have. -/
def Fits {α : Type} [Message α] (message : α) : Prop := ∀ v ∈ values message, v.Fits

/-- The texts of the members of a message, in the order of its fields. -/
def memberTexts {α : Type} [Message α] (message : α) : List Bytes :=
  (Json.entries (fields α) (values message)).map Json.memberText

/-- What holds of a type of messages that are read back as they were written. -/
structure RoundTrips (α : Type) [Message α] : Prop where
  /-- A message is read from the text it is written as. -/
  parse_encode (message : α) (h : Fits message) : parse (encode message) = .ok message
  /-- What is read is written in the same way again. -/
  encode_parse (message again : α) (h : Fits message) (hread : parse (encode message) = .ok again) :
    encode again = encode message
  /-- A message is written as an object with its members in order. -/
  encode_eq (message : α) : encode message = Json.objectText (memberTexts message)
  /-- A message is read from its members in any order, with any foreign ones among them. -/
  parse_members (message : α) (h : Fits message) (foreign members : List Bytes)
    (hforeign : ∀ member ∈ foreign, IsForeign (fields α) member)
    (hmembers : members.Perm (memberTexts message ++ foreign)) :
    parse (Json.objectText members) = .ok message

/-- A type of messages that says what its messages are made of. -/
structure Lawful (α : Type) [Message α] : Prop where
  names : ((fields α).map Prod.fst).Nodup
  types (message : α) : (values message).map FieldValue.type = (fields α).map Prod.snd
  ofValues? (message : α) : ofValues? (values message) = some message

section

variable {α : Type} [Message α]

theorem encode_eq_objectText (message : α) :
    encode message = Json.objectText (memberTexts message) := by
  have hmembers : ((fields α).map Prod.fst).zip ((values message).map FieldValue.toJson) =
      (Json.entries (fields α) (values message)).map (Prod.map id FieldValue.toJson) :=
    List.zip_map_right
  rw [encode, toJson, hmembers, Json.encode, Json.encodeMembers_eq, Json.parts_map, List.map_map,
    Json.parts_eq_intercalate]
  rfl

theorem Lawful.parse_members (h : Lawful α) {message : α} (hfits : Fits message)
    {foreign members : List Bytes} (hforeign : ∀ member ∈ foreign, IsForeign (fields α) member)
    (hmembers : members.Perm (memberTexts message ++ foreign)) :
    parse (Json.objectText members) = .ok message := by
  rw [parse, Json.parseRecord_objectText h.names (h.types message) hfits hforeign hmembers]
  simp only [bind, Except.bind, build, h.ofValues? message]

/-- The messages of such a type are read back as they were written. -/
theorem Lawful.roundTrips (h : Lawful α) : RoundTrips α := by
  have hread : ∀ message : α, Fits message → parse (encode message) = .ok message := by
    intro message hfits
    rw [encode_eq_objectText]
    refine h.parse_members hfits (List.forall_mem_nil _) ?_
    rw [List.append_nil]
  constructor
  · exact hread
  · intro message again hfits hagain
    rw [hread message hfits] at hagain
    cases hagain
    rfl
  · exact encode_eq_objectText
  · intro message hfits foreign members hforeign hmembers
    exact h.parse_members hfits hforeign hmembers

end

/-! ### The messages of the service -/

theorem lawful_encryptResponse : Lawful EncryptResponse := ⟨by decide, fun _ => rfl, fun _ => rfl⟩

/-- Every request and every answer of the service is read back as it was written, with its members
in any order and with any others among them. -/
theorem messages_round_trip :
    RoundTrips EncryptRequest ∧ RoundTrips EncryptResponse ∧ RoundTrips DecryptRequest ∧
      RoundTrips DecryptResponse ∧ RoundTrips HashResponse ∧ RoundTrips StoreDocumentRequest ∧
      RoundTrips StoreDocumentResponse ∧ RoundTrips DocumentResponse ∧
      RoundTrips ErrorResponse ∧ RoundTrips HealthResponse := by
  refine ⟨?_, ?_, ?_, ?_, ?_, ?_, ?_, ?_, ?_, ?_⟩ <;>
    exact Lawful.roundTrips ⟨by decide, fun _ => rfl, fun _ => rfl⟩

/-- A stored document with escapes, nesting, and the least and the greatest integer. -/
def ledger : DocumentResponse where
  id := "\"\\\u0007\n𝄞"
  payload := .obj [("a", .arr [.int (-9223372036854775808), .int 18446744073709551615]),
    ("b", .obj [("\t", .arr []), ("é", .null)])]

/-- A member that no message has. -/
def remark : String × Json := ("remark", .obj [("id", .arr [.bool true, .str "payload"])])

theorem fits_ledger : Fits ledger := by
  have hsorted : ledger.payload.canonical = ledger.payload := rfl
  have hbounds : Plain 125 (.arr [.int (-9223372036854775808), .int 18446744073709551615]) := by
    apply Plain.arr
    simp only [List.forall_mem_cons]
    exact ⟨.int _ (by decide) (by decide), .int _ (by decide) (by decide), List.forall_mem_nil _⟩
  have hinner : Plain 125 (.obj [("\t", .arr []), ("é", .null)]) := by
    apply Plain.obj
    simp only [List.forall_mem_cons]
    exact ⟨.arr (List.forall_mem_nil _), .null _, List.forall_mem_nil _⟩
  have hplain : Plain 126 ledger.payload := by
    apply Plain.obj
    simp only [List.forall_mem_cons]
    exact ⟨hbounds, hinner, List.forall_mem_nil _⟩
  simp only [Fits, values, List.forall_mem_cons]
  exact ⟨trivial, ⟨hsorted, hplain⟩, List.forall_mem_nil _⟩

/-- The document is read back, and also from its members in the other order around a foreign
one. -/
theorem ledger_read_back :
    Fits ledger ∧ parse (encode ledger) = .ok ledger ∧
      parse (Json.objectText [Json.memberText ("payload", .any ledger.payload),
        Json.encodeMember remark, Json.memberText ("id", .text ledger.id)]) = .ok ledger := by
  obtain ⟨-, -, -, -, -, -, -, hdocument, -, -⟩ := messages_round_trip
  have hforeign : IsForeign (fields DocumentResponse) (Json.encodeMember remark) := by
    refine Json.isForeign_encodeMember (by decide) (.obj (List.forall_mem_singleton.2 (.arr ?_)))
    simp only [List.forall_mem_cons]
    exact ⟨.bool _ _, .str _ _, List.forall_mem_nil _⟩
  have hperm : ([Json.memberText ("payload", .any ledger.payload), Json.encodeMember remark] ++
      [Json.memberText ("id", .text ledger.id)]).Perm (memberTexts ledger ++
        [Json.encodeMember remark]) := List.perm_append_comm
  refine ⟨fits_ledger, hdocument.parse_encode ledger fits_ledger, ?_⟩
  exact hdocument.parse_members ledger fits_ledger [Json.encodeMember remark] _
    (List.forall_mem_singleton.2 hforeign) hperm

end FieldVault.Message
