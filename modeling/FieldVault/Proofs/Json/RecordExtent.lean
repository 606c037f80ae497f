import FieldVault.Proofs.Json.Extent
import FieldVault.Message

/-!
# How much a record can hold

A record passes over members it does not know, and keeps texts and values for the others. Every text
it gives has at most as many bytes as the record is written with (`reads_record`), and hence so has
every text in a message (`Message.gives_read`).
-/

set_option autoImplicit false

namespace FieldVault

namespace Json

variable {bound : Nat}

/-! ### Values that are passed over -/

theorem gives_skipString (fuel : Bytes) {input : Bytes} (h : Rest bound input) :
    Gives (Rest bound) (skipString fuel input) := by
  induction fuel generalizing input with
  | nil => exact gives_error _
  | cons first fuel ih =>
    cases input with
    | nil => exact gives_error _
    | cons b rest =>
      rw [skipString.eq_def]
      dsimp only
      split
      · exact gives_ok h.of_cons
      · split
        · cases rest with
          | nil => exact gives_error _
          | cons c rest =>
            dsimp only
            split
            · cases hunit : hexUnit rest with
              | error fault => exact gives_error _
              | ok result =>
                have hlength := gives_hexUnit result hunit
                exact ih (Nat.le_trans (by omega) h.of_cons.of_cons)
            · split
              · exact ih h.of_cons.of_cons
              · exact gives_error _
        · split
          · exact gives_error _
          · exact ih h.of_cons

theorem gives_skipDigits {input : Bytes} (h : Rest bound input) :
    Gives (Rest bound) (skipDigits input) := by
  cases input with
  | nil => exact gives_error _
  | cons d rest =>
    rw [skipDigits]
    split
    · exact gives_ok (h.of_cons.dropWhile _)
    · exact gives_error _

theorem gives_skipExponent {input : Bytes} (h : Rest bound input) :
    Gives (Rest bound) (skipExponent input) := by
  cases input with
  | nil => exact gives_ok h
  | cons b rest =>
    rw [skipExponent.eq_def]
    dsimp only
    split
    · cases rest with
      | nil => exact gives_error _
      | cons s digits =>
        dsimp only
        split
        · exact gives_skipDigits h.of_cons.of_cons
        · exact gives_skipDigits h.of_cons
    · exact gives_ok h

theorem gives_skipFraction {input : Bytes} (h : Rest bound input) :
    Gives (Rest bound) (skipFraction input) := by
  cases input with
  | nil => exact gives_ok h
  | cons b rest =>
    rw [skipFraction]
    split
    · exact gives_bind (gives_skipDigits h.of_cons) fun _ hrest => gives_skipExponent hrest
    · exact gives_skipExponent h

theorem gives_skipNumber {input : Bytes} (h : Rest bound input) :
    Gives (Rest bound) (skipNumber input) := by
  cases input with
  | nil => exact gives_error _
  | cons b rest =>
    unfold skipNumber
    dsimp only
    split
    · cases rest with
      | nil => exact gives_ok h.of_cons
      | cons d rest =>
        dsimp only
        split
        · exact gives_error _
        · exact gives_skipFraction h.of_cons
    · split
      · exact gives_skipFraction (h.of_cons.dropWhile _)
      · exact gives_error _

theorem reads_skipWith {array object : Reader Unit} (harray : Reads bound Anything array)
    (hobject : Reads bound Anything object) : Reads bound Anything (skipWith array object) := by
  intro input hinput
  refine gives_afterSpace hinput fun b rest hrest => ?_
  have hskipped : ∀ reading : Except Fault Bytes, Gives (Rest bound) reading →
      Gives (Leaves bound Anything) (reading.map fun rest => ((), rest)) :=
    fun _ h => gives_map h fun _ hafter => ⟨trivial, hafter⟩
  have hword : ∀ letters, Gives (Leaves bound Anything)
      ((word letters rest).map fun rest => ((), rest)) :=
    fun letters => hskipped _ (gives_word letters hrest.of_cons)
  apply gives_ite (hword _)
  apply gives_ite (hword _)
  apply gives_ite (hword _)
  apply gives_ite (hskipped _ (gives_skipNumber hrest.of_cons))
  apply gives_ite (hskipped _ (gives_skipNumber hrest))
  apply gives_ite (hskipped _ (gives_skipString rest hrest.of_cons))
  apply gives_ite (harray rest hrest.of_cons)
  exact gives_ite (hobject rest hrest.of_cons) (gives_error _)

theorem reads_skipValue (depth : Bytes) : Reads bound Anything (skipValue depth) := by
  induction depth with
  | nil => exact reads_skipWith (reads_refuse _) (reads_refuse _)
  | cons first depth ih =>
    have hmember : Reads bound Anything (skipMember (skipValue depth)) := by
      intro input hinput
      refine gives_bind (gives_skipString input hinput) fun afterName hname => ?_
      exact gives_bind (gives_colon hname) fun afterColon hcolon => ih afterColon hcolon
    exact reads_skipWith (reads_itemsWith (fun _ _ => ih) trivial)
      (reads_membersWith (fun _ _ => hmember) trivial)

theorem reads_skip : Reads bound Anything skip :=
  fun input hinput => reads_skipValue input input hinput

/-! ### Members of records -/

/-- A member of a record whose texts have at most `bound` bytes. -/
def FieldValue.Within (bound : Nat) : FieldValue → Prop
  | .text value => Extent bound value
  | .flag _ => True
  | .count _ => True
  | .any value => EveryText (Extent bound) value

/-- A scalar is good if it is made of a text that is. -/
theorem reads_scalar {α : Type} {good : α → Prop} {accept : Json → Option α}
    (h : ∀ value a, EveryText (Extent bound) value → accept value = some a → good a) :
    Reads bound good (scalar accept) := by
  intro input hinput
  refine gives_bind (reads_valueWith (reads_refuse _) (reads_refuse _) input hinput) ?_
  intro found hfound
  dsimp only
  split
  · rename_i haccept
    exact gives_ok ⟨h _ _ hfound.1 haccept, hfound.2⟩
  · exact gives_error _

theorem reads_fieldValue (depth : Nat) (type : FieldType) :
    Reads bound (FieldValue.Within bound) (fieldValue depth type) := by
  cases type with
  | text =>
    rw [fieldValue]
    refine reads_scalar fun value a hvalue haccept => ?_
    cases hvalue with
    | str htext =>
      cases haccept
      exact htext
    | _ => cases haccept
  | flag =>
    rw [fieldValue]
    refine reads_scalar fun value a _ haccept => ?_
    cases value with
    | bool b =>
      cases haccept
      exact trivial
    | _ => cases haccept
  | count =>
    rw [fieldValue]
    refine reads_scalar fun value a _ haccept => ?_
    cases value with
    | int i =>
      dsimp only at haccept
      split at haccept
      · cases haccept
        exact trivial
      · cases haccept
    | _ => cases haccept
  | any =>
    exact fun input hinput => gives_map (reads_value depth input hinput) fun _ hvalue =>
      ⟨hvalue.1.canonical, hvalue.2⟩

theorem reads_recordMember (fields : Fields) (depth : Nat) {read : List (String × FieldValue)}
    (hread : ∀ entry ∈ read, entry.2.Within bound) :
    Reads bound (fun read => ∀ entry ∈ read, FieldValue.Within bound entry.2)
      (recordMember fields depth read) := by
  intro input hinput
  refine gives_bind (reads_string input hinput) fun name hname => ?_
  dsimp only
  split
  · refine gives_bind (gives_colon hname.2) fun afterColon hcolon => ?_
    exact gives_bind (reads_skip afterColon hcolon) fun _ hskipped =>
      gives_ok ⟨hread, hskipped.2⟩
  · split
    · exact gives_error _
    · refine gives_bind (gives_colon hname.2) fun afterColon hcolon => ?_
      exact gives_bind (reads_fieldValue depth _ afterColon hcolon) fun _ hvalue =>
        gives_ok ⟨List.forall_mem_cons.2 ⟨hvalue.1, hread⟩, hvalue.2⟩

theorem gives_collect {read : List (String × FieldValue)}
    (hread : ∀ entry ∈ read, entry.2.Within bound) (fields : Fields) :
    Gives (fun values => ∀ value ∈ values, FieldValue.Within bound value)
      (collect read fields) := by
  -- what is found under a name was read
  have hlookup : ∀ name value, lookup? name read = some value → value.Within bound := by
    intro name value hvalue
    induction read with
    | nil => cases hvalue
    | cons first rest ih =>
      obtain ⟨hfirst, hrest⟩ := List.forall_mem_cons.1 hread
      rw [lookup?] at hvalue
      split at hvalue
      · cases hvalue
        exact hfirst
      · exact ih hrest hvalue
  induction fields with
  | nil => exact gives_ok (List.forall_mem_nil _)
  | cons field rest ih =>
    rw [collect]
    split
    · exact gives_error _
    · rename_i value hvalue
      exact gives_map ih fun values hvalues =>
        List.forall_mem_cons.2 ⟨hlookup _ value hvalue, hvalues⟩

/-- A value in front of the others. -/
theorem gives_consValue (depth : Nat) (type : FieldType) {others : Reader (List FieldValue)}
    (hothers : Reads bound (fun values => ∀ value ∈ values, FieldValue.Within bound value) others)
    {input : Bytes} (h : Rest bound input) :
    Gives (Leaves bound fun values => ∀ value ∈ values, FieldValue.Within bound value) (do
      let (value, rest) ← fieldValue depth type input
      let (values, rest) ← others rest
      return (value :: values, rest)) :=
  gives_bind (reads_fieldValue depth type input h) fun _ hvalue =>
    gives_bind (hothers _ hvalue.2) fun _ hvalues =>
      gives_ok ⟨List.forall_mem_cons.2 ⟨hvalue.1, hvalues.1⟩, hvalues.2⟩

theorem reads_recordItems (depth : Nat) (first : Bool) (fields : Fields) :
    Reads bound (fun values => ∀ value ∈ values, FieldValue.Within bound value)
      (recordItems depth first fields) := by
  induction fields generalizing first with
  | nil =>
    intro input hinput
    rw [recordItems]
    refine gives_afterSpace hinput fun b rest hrest => ?_
    split
    · exact gives_ok ⟨List.forall_mem_nil _, hrest.of_cons⟩
    · exact gives_error _
  | cons field rest ih =>
    intro input hinput
    rw [recordItems]
    -- the separator is taken before the value, so that the first item has none
    refine gives_afterSpace hinput fun b given hgiven => ?_
    split
    · exact gives_error _
    · split
      · exact gives_consValue depth field.2 (ih false) hgiven
      · split
        · refine gives_afterSpace hgiven.of_cons fun closing others _ => ?_
          split
          · exact gives_error _
          · exact gives_consValue depth field.2 (ih false) hgiven.of_cons
        · exact gives_error _

/-- Every text in a record has at most as many bytes as the record is written with. -/
theorem reads_record (fields : Fields) :
    Reads bound (fun values => ∀ value ∈ values, FieldValue.Within bound value)
      (record fields) := by
  intro input hinput
  refine gives_afterSpace hinput fun b rest hrest => ?_
  split
  · refine gives_bind (reads_membersWith (fun _ hread => reads_recordMember fields _ hread)
      (List.forall_mem_nil _) rest hrest.of_cons) fun _ hread => ?_
    exact gives_bind (gives_collect hread.1 fields) fun _ hvalues => gives_ok ⟨hvalues, hread.2⟩
  · split
    · exact reads_recordItems _ true fields rest hrest.of_cons
    · exact reads_scalar (fun _ _ _ h => nomatch h) _ hrest

end Json

/-! ### Messages -/

namespace Message

open Json (FieldValue Gives Rest gives_bind gives_error gives_ok reads_record)

variable {α : Type} [Message α]

theorem gives_build (values : List FieldValue) :
    Gives (fun message : α => ofValues? values = some message) (build values) := by
  unfold build
  split
  · exact gives_ok (by assumption)
  · exact gives_error _

/-- A message that was read from at most `bound` bytes is made of values whose texts have at most
as many. -/
theorem gives_read {bound : Nat} {input : Bytes} (h : Rest bound input) :
    Gives (fun result : α × Bytes => ∃ values : List FieldValue,
      ofValues? values = some result.1 ∧ ∀ value ∈ values, value.Within bound) (read input) := by
  rw [read]
  refine gives_bind (reads_record (fields α) input h) fun _ hvalues => ?_
  exact gives_bind (gives_build _) fun _ hbuilt => gives_ok ⟨_, hbuilt, hvalues.1⟩

end Message

end FieldVault
