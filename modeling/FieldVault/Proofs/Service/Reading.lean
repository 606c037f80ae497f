import FieldVault.Proofs.Document.Sealing
import FieldVault.Proofs.Json.RecordExtent
import FieldVault.Proofs.Service.Run

/-!
# What is read from a request

A request that cannot be read is refused, with a status of 400 or more. What can be read fits in a
body of at most two mebibytes, and every text in it has at most as many bytes: all of them can be
encrypted (`length_plaintext_le`, `withinLimit_payload`).
-/

set_option autoImplicit false

namespace FieldVault.Service

open Document (WithinLimit)
open Http (Request Response)
open Json (FieldValue)

variable {α : Type} [Message α] {request : Request}

/-! ### Refusals -/

/-- The request is refused. -/
def Refuses (response : Response) : Prop := 400 ≤ response.status

theorem refuses_refusal (fault : ServiceFault) : Refuses (refusal fault) := by
  have hstatus : (refusal fault).status = fault.status := rfl
  rw [Refuses, hstatus]
  cases fault <;> rw [ServiceFault.status] <;> decide

/-- A body that holds no message is refused. -/
theorem refuses_of_readMessage {response : Response}
    (h : (readMessage request : Except Response α) = .error response) : Refuses response := by
  unfold readMessage at h
  split at h
  · cases h
    exact Nat.le_of_ble_eq_true rfl
  · split at h
    · cases h
      exact Nat.le_of_ble_eq_true rfl
    · split at h <;> cases h <;> exact Nat.le_of_ble_eq_true rfl

/-- A part of a path that is no text is refused. -/
theorem refuses_of_readPart {part : String} {response : Response}
    (h : readPart part = .error response) : Refuses response := by
  unfold readPart at h
  split at h
  · cases h
  · cases h
    exact Nat.le_refl 400

/-! ### Lengths -/

theorem bodyLimit_le_plaintextLimit : bodyLimit ≤ Gcm.plaintextLimit := by decide

/-- A message is made of values whose texts can be encrypted. -/
theorem within_of_readMessage {message : α} (h : readMessage request = .ok message) :
    ∃ values : List FieldValue, Message.ofValues? values = some message ∧
      ∀ value ∈ values, value.Within Gcm.plaintextLimit := by
  unfold readMessage at h
  split at h
  · cases h
  · split at h
    · cases h
    · rename_i hshort
      have hlength : request.body.length ≤ Gcm.plaintextLimit :=
        Nat.le_trans (Nat.le_of_not_lt hshort) bodyLimit_le_plaintextLimit
      split at h
      · rename_i found rest hread
        cases h
        exact Message.gives_read hlength _ hread
      · cases h
      · cases h

/-- A plaintext that was sent can be encrypted. -/
theorem length_plaintext_le {message : EncryptRequest} (h : readMessage request = .ok message) :
    (Bytes.ofText message.plaintext).length ≤ Gcm.plaintextLimit := by
  obtain ⟨values, hvalues, hwithin⟩ := within_of_readMessage h
  simp only [Message.ofValues?] at hvalues
  split at hvalues
  · cases hvalues
    exact hwithin _ (List.mem_cons_of_mem _ List.mem_cons_self)
  · cases hvalues

/-- Every text of a document that was sent can be encrypted. -/
theorem withinLimit_payload {message : StoreDocumentRequest}
    (h : readMessage request = .ok message) : WithinLimit message.payload := by
  obtain ⟨values, hvalues, hwithin⟩ := within_of_readMessage h
  simp only [Message.ofValues?] at hvalues
  split at hvalues
  · cases hvalues
    exact (hwithin _ List.mem_cons_self).allTexts
  · cases hvalues

end FieldVault.Service
