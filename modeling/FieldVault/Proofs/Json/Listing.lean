import FieldVault.Proofs.Json.Unique
import Mathlib.Data.List.DropRight

/-!
# Lists of texts are read element by element

The items of an array and the members of an object are read in the same way: one element after the
other, with a comma between them, up to the bracket. So if a reader takes each of some texts, the
loop over it takes all of them in a row (`enclosed_parts`).
-/

set_option autoImplicit false

namespace FieldVault.Json

/-- What may follow a value: nothing more, or a comma or a closing bracket. -/
def Ends (rest : Bytes) : Prop :=
  ∀ b bytes, rest = b :: bytes → b = 0x2c ∨ b = 0x5d ∨ b = 0x7d

theorem ends_nil : Ends [] := by
  intro b bytes h
  cases h

theorem ends_cons {b : UInt8} (h : b = 0x2c ∨ b = 0x5d ∨ b = 0x7d) (bytes : Bytes) :
    Ends (b :: bytes) := by
  intro first rest hfirst
  cases hfirst
  exact h

theorem skipSpace_skipSpace (input : Bytes) : skipSpace (skipSpace input) = skipSpace input :=
  List.dropWhile_idempotent isSpace input

/-- Space that ends in a text ends there in a longer one. -/
theorem skipSpace_append {b : UInt8} {input rest : Bytes} (h : skipSpace input = b :: rest)
    (tail : Bytes) : skipSpace (input ++ tail) = b :: (rest ++ tail) := by
  rw [skipSpace] at h ⊢
  rw [List.dropWhile_append, h]
  rfl

/-- No space stands before what ends a value. -/
theorem Ends.skipSpace {rest : Bytes} (h : Ends rest) : skipSpace rest = rest := by
  cases rest with
  | nil => rfl
  | cons b bytes => rcases h b bytes rfl with rfl | rfl | rfl <;> exact skipSpace_cons rfl bytes

/-- What may follow a token: nothing more, space, a comma or a closing bracket. -/
def EndsToken (rest : Bytes) : Prop :=
  ∀ b bytes, rest = b :: bytes → b ∈ [0x20, 0x09, 0x0a, 0x0d, 0x2c, 0x5d, 0x7d]

theorem Ends.endsToken {rest : Bytes} (h : Ends rest) : EndsToken rest := by
  intro b bytes hrest
  rcases h b bytes hrest with rfl | rfl | rfl <;> decide

section

variable {σ : Type} {element : σ → Reader σ} {closing : UInt8}

/-- A text is read as an element, whatever may follow it; space may be left before that. -/
def Takes (element : σ → Reader σ) (text : Bytes) (state next : σ) : Prop :=
  ∀ rest, Ends rest → ∃ left, element state (text ++ rest) = .ok (next, left) ∧
    skipSpace left = rest

/-- Texts are read as elements, one after the other. -/
inductive TakesAll (element : σ → Reader σ) : List Bytes → σ → σ → Prop where
  | nil (state : σ) : TakesAll element [] state state
  | cons {text : Bytes} {texts : List Bytes} {state next final : σ}
    (h : Takes element text state next) (hrest : TakesAll element texts next final) :
    TakesAll element (text :: texts) state final

/-- Elements up to a closing bracket, each read into a state. -/
def loop (closing : UInt8) (element : σ → Reader σ) : Bytes → σ → Reader σ
  | [], _, _ => .error .truncated
  | _ :: fuel, state, input =>
    match element state input with
    | .error fault => .error fault
    | .ok (state, rest) =>
      match skipSpace rest with
      | [] => .error .truncated
      | b :: rest =>
        if b = closing then .ok (state, rest)
        else if b = 0x2c then loop closing element fuel state rest
        else .error .malformed

/-- Elements up to a closing bracket, or the bracket at once. -/
def enclosed (closing : UInt8) (element : σ → Reader σ) (start : σ) : Reader σ := fun input =>
  match skipSpace input with
  | [] => .error .truncated
  | b :: rest =>
    if b = closing then .ok (start, rest) else loop closing element (b :: rest) start (b :: rest)

/-- A member, read from the quote on that opens its name. -/
def fromName (member : σ → Reader σ) (state : σ) : Reader σ := fun input => do
  member state (← openName input)

theorem itemLoop_eq (item : σ → Reader σ) (fuel : Bytes) :
    itemLoop item fuel = loop 0x5d item fuel := by
  induction fuel with
  | nil => rfl
  | cons first fuel ih =>
    funext state input
    rw [loop, ← ih]
    rfl

theorem memberLoop_eq (member : σ → Reader σ) (fuel : Bytes) :
    memberLoop member fuel = loop 0x7d (fromName member) fuel := by
  induction fuel with
  | nil => rfl
  | cons first fuel ih =>
    funext state input
    rw [loop, ← ih]
    rfl

/-- An array is a list of items. -/
theorem itemsWith_eq (item : σ → Reader σ) (start : σ) :
    itemsWith item start = enclosed 0x5d item start := by
  unfold enclosed
  simp only [← itemLoop_eq]
  rfl

/-- An object is a list of members. -/
theorem membersWith_eq (member : σ → Reader σ) (start : σ) :
    membersWith member start = enclosed 0x7d (fromName member) start := by
  unfold enclosed
  simp only [← memberLoop_eq]
  rfl

theorem length_lt_length_followers (closing : UInt8) (texts : List Bytes) :
    texts.length < (followers id closing texts).length := by
  induction texts with
  | nil => exact Nat.zero_lt_one
  | cons text texts ih =>
    simp only [followers, id_eq, List.length_cons, List.length_append]
    omega

/-- A loop reads the texts that its elements take, up to the bracket behind them. -/
theorem loop_followers (hclosing : closing = 0x5d ∨ closing = 0x7d) {text : Bytes}
    {texts : List Bytes} {state final : σ} {fuel : Bytes} (hfuel : texts.length < fuel.length)
    (h : TakesAll element (text :: texts) state final) (rest : Bytes) :
    loop closing element fuel state (text ++ (followers id closing texts ++ rest)) =
      .ok (final, rest) := by
  induction texts generalizing text state fuel with
  | nil =>
    cases fuel with
    | nil => cases hfuel
    | cons first fuel =>
      cases h with
      | cons hfirst hrest =>
        cases hrest
        obtain ⟨left, hread, hleft⟩ := hfirst (closing :: rest) (ends_cons (.inr hclosing) rest)
        simp only [followers, List.cons_append, List.nil_append, loop, hread, hleft, if_true]
  | cons next texts ih =>
    cases fuel with
    | nil => cases hfuel
    | cons first fuel =>
      cases h with
      | cons hfirst hrest =>
        have hcomma : (0x2c : UInt8) ≠ closing := by
          rcases hclosing with rfl | rfl <;> decide
        obtain ⟨left, hread, hleft⟩ := hfirst _
          (ends_cons (.inl rfl) (next ++ (followers id closing texts ++ rest)))
        simp only [followers, id_eq, List.cons_append, List.append_assoc, loop, hread, hleft,
          if_neg hcomma, if_true]
        exact ih (Nat.lt_of_succ_lt_succ hfuel) hrest

/-- Space in front of an element makes no difference. -/
def IgnoresSpace (element : σ → Reader σ) : Prop :=
  ∀ state input, element state (skipSpace input) = element state input

theorem ignoresSpace_fromName (member : σ → Reader σ) : IgnoresSpace (fromName member) := by
  intro state input
  rw [fromName, fromName, openName, openName, skipSpace_skipSpace]

theorem IgnoresSpace.loop_skipSpace (h : IgnoresSpace element) (fuel : Bytes) (state : σ)
    (input : Bytes) :
    loop closing element fuel state (skipSpace input) = loop closing element fuel state input := by
  cases fuel with
  | nil => rfl
  | cons first fuel => rw [loop, loop, h]

/-- A text whose first byte that is no space is no bracket either. -/
def Opens (closing : UInt8) (text : Bytes) : Prop :=
  ∃ b bytes, skipSpace text = b :: bytes ∧ b ≠ closing

/-- A list is read from the texts of its elements. -/
theorem enclosed_parts (hclosing : closing = 0x5d ∨ closing = 0x7d)
    (hspace : IgnoresSpace element) {texts : List Bytes} {start final : σ}
    (hopens : ∀ text ∈ texts, Opens closing text) (h : TakesAll element texts start final)
    (rest : Bytes) :
    enclosed closing element start (parts id closing texts ++ rest) = .ok (final, rest) := by
  cases texts with
  | nil =>
    cases h
    have hspace : isSpace closing = false := by
      rcases hclosing with rfl | rfl <;> rfl
    simp only [parts, List.cons_append, List.nil_append, enclosed, skipSpace_cons hspace, if_true]
  | cons text texts =>
    obtain ⟨b, bytes, hopen, hne⟩ := hopens text List.mem_cons_self
    have hopened := skipSpace_append hopen (followers id closing texts ++ rest)
    have hfuel : texts.length <
        (b :: (bytes ++ (followers id closing texts ++ rest))).length := by
      have hlength := length_lt_length_followers closing texts
      simp only [List.length_cons, List.length_append]
      omega
    have hloop := loop_followers hclosing hfuel h rest
    rw [← hspace.loop_skipSpace, hopened] at hloop
    rw [parts, id_eq, List.append_assoc, enclosed, hopened]
    dsimp only
    rw [if_neg hne, hloop]

/-- Parts are written one after the other. -/
theorem parts_map {α : Type} (write : α → Bytes) (list : List α) :
    parts write closing list = parts id closing (list.map write) := by
  have hfollowers : ∀ list : List α,
      followers write closing list = followers id closing (list.map write) := by
    intro list
    induction list with
    | nil => rfl
    | cons next others ih =>
      rw [followers, ih]
      rfl
  cases list with
  | nil => rfl
  | cons first others =>
    rw [parts, hfollowers]
    rfl

end

end FieldVault.Json
