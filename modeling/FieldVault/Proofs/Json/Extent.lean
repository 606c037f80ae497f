import FieldVault.Proofs.Json.Listing
import FieldVault.Proofs.Json.Texts

/-!
# How much a reader can take

A reader takes from the front of its input, so that what it leaves is no longer than what it was
given, and a text that it gives has at most as many bytes. `Reads bound good reader` says this of a
reader for inputs of at most `bound` bytes, where `good` is what is known of a result. It goes
through every construction of readers, and hence holds of the values of JSON texts (`reads_value`).
-/

set_option autoImplicit false

namespace FieldVault.Json

variable {α β : Type}

/-! ### Results of a reading -/

/-- What a reading gives, if it succeeds, is good. -/
def Gives (good : α → Prop) (reading : Except Fault α) : Prop := ∀ a, reading = .ok a → good a

theorem gives_ok {good : α → Prop} {a : α} (h : good a) : Gives good (.ok a) := by
  intro b hb
  cases hb
  exact h

theorem gives_error {good : α → Prop} (fault : Fault) : Gives good (.error fault) :=
  fun _ h => nomatch h

theorem gives_bind {good : α → Prop} {final : β → Prop} {reading : Except Fault α}
    {next : α → Except Fault β} (h : Gives good reading)
    (hnext : ∀ a, good a → Gives final (next a)) : Gives final (reading >>= next) := by
  cases reading with
  | error fault => exact gives_error fault
  | ok a => exact hnext a (h a rfl)

theorem gives_map {good : α → Prop} {final : β → Prop} {reading : Except Fault α} {f : α → β}
    (h : Gives good reading) (hf : ∀ a, good a → final (f a)) : Gives final (reading.map f) := by
  cases reading with
  | error fault => exact gives_error fault
  | ok a => exact gives_ok (hf a (h a rfl))

/-- What is good on both sides of a choice is good. -/
theorem gives_ite {good : α → Prop} {p : Prop} [Decidable p] {first second : Except Fault α}
    (hfirst : Gives good first) (hsecond : Gives good second) :
    Gives good (if p then first else second) := by
  split
  · exact hfirst
  · exact hsecond

/-- The rest of an input of at most `bound` bytes. -/
def Rest (bound : Nat) (rest : Bytes) : Prop := rest.length ≤ bound

/-- A good result with the rest of an input of at most `bound` bytes. -/
def Leaves (bound : Nat) (good : α → Prop) (result : α × Bytes) : Prop :=
  good result.1 ∧ Rest bound result.2

/-- Whatever an input of at most `bound` bytes is, the result of a reader is good, and the rest has
at most as many bytes. -/
def Reads (bound : Nat) (good : α → Prop) (reader : Reader α) : Prop :=
  ∀ input, Rest bound input → Gives (Leaves bound good) (reader input)

/-- A result of which nothing need be known. -/
def Anything (_ : α) : Prop := True

variable {bound : Nat}

theorem Rest.of_cons {b : UInt8} {rest : Bytes} (h : Rest bound (b :: rest)) : Rest bound rest :=
  Nat.le_of_succ_le h

theorem Rest.dropWhile {rest : Bytes} (h : Rest bound rest) (p : UInt8 → Bool) :
    Rest bound (rest.dropWhile p) :=
  Nat.le_trans (List.dropWhile_sublist p).length_le h

theorem Rest.skipSpace {input : Bytes} (h : Rest bound input) : Rest bound (skipSpace input) :=
  h.dropWhile isSpace

theorem gives_word (letters : Bytes) {input : Bytes} (h : Rest bound input) :
    Gives (Rest bound) (word letters input) := by
  induction letters generalizing input with
  | nil => exact gives_ok h
  | cons letter letters ih =>
    cases input with
    | nil => exact gives_error _
    | cons b rest =>
      rw [word]
      split
      · exact ih h.of_cons
      · exact gives_error _

/-! ### Numbers -/

theorem gives_wholePart {input : Bytes} (h : Rest bound input) :
    Gives (Leaves bound Anything) (wholePart input) := by
  cases input with
  | nil => exact gives_error _
  | cons b rest =>
    unfold wholePart
    dsimp only
    split
    · split
      · cases rest with
        | nil => exact gives_ok ⟨trivial, h.of_cons⟩
        | cons d rest =>
          dsimp only
          split
          · exact gives_error _
          · exact gives_ok ⟨trivial, h.of_cons⟩
      · exact gives_ok ⟨trivial, h.of_cons.dropWhile _⟩
    · exact gives_error _

theorem gives_fractionPart {input : Bytes} (h : Rest bound input) :
    Gives (Leaves bound Anything) (fractionPart input) := by
  cases input with
  | nil => exact gives_ok ⟨trivial, h⟩
  | cons b rest =>
    unfold fractionPart
    dsimp only
    split
    · cases rest with
      | nil => exact gives_error _
      | cons d rest =>
        dsimp only
        split
        · exact gives_ok ⟨trivial, h.of_cons.dropWhile _⟩
        · exact gives_error _
    · exact gives_ok ⟨trivial, h⟩

/-- The digits of an exponent after its sign, of which there is at least one. -/
def signedDigits (negative : Bool) (digits : Bytes) : Except Fault (Int × Bytes) :=
  match digits with
  | [] => .error .truncated
  | d :: _ =>
    if isDigit d then
      .ok ((if negative then -(exponentValue (digits.takeWhile isDigit) : Int)
        else exponentValue (digits.takeWhile isDigit)), digits.dropWhile isDigit)
    else .error .malformed

theorem exponentDigits_cons (s : UInt8) (bytes : Bytes) :
    exponentDigits (s :: bytes) =
      if s = 0x2b then signedDigits false bytes
      else if s = 0x2d then signedDigits true bytes
      else signedDigits false (s :: bytes) := by
  unfold exponentDigits
  dsimp only
  by_cases hplus : s = 0x2b
  · rw [if_pos hplus, if_pos hplus]
    rfl
  · rw [if_neg hplus, if_neg hplus]
    by_cases hminus : s = 0x2d
    · rw [if_pos hminus, if_pos hminus]
      rfl
    · rw [if_neg hminus, if_neg hminus]
      rfl

theorem gives_signedDigits (negative : Bool) {digits : Bytes} (h : Rest bound digits) :
    Gives (Leaves bound Anything) (signedDigits negative digits) := by
  cases digits with
  | nil => exact gives_error _
  | cons d digits =>
    rw [signedDigits]
    split
    · exact gives_ok ⟨trivial, h.dropWhile _⟩
    · exact gives_error _

theorem gives_exponentDigits {input : Bytes} (h : Rest bound input) :
    Gives (Leaves bound Anything) (exponentDigits input) := by
  cases input with
  | nil => exact gives_error _
  | cons b rest =>
    rw [exponentDigits_cons]
    split
    · exact gives_signedDigits false h.of_cons
    · split
      · exact gives_signedDigits true h.of_cons
      · exact gives_signedDigits false h

theorem gives_exponentPart {input : Bytes} (h : Rest bound input) :
    Gives (Leaves bound Anything) (exponentPart input) := by
  cases input with
  | nil => exact gives_ok ⟨trivial, h⟩
  | cons b rest =>
    rw [exponentPart]
    split
    · exact gives_bind (gives_exponentDigits h.of_cons) fun _ hrest => gives_ok ⟨trivial, hrest.2⟩
    · exact gives_ok ⟨trivial, h⟩

theorem everyText_integerOf {p : String → Prop} (negative : Bool) (significand : Nat) :
    EveryText p (integerOf negative significand) := by
  rw [integerOf]
  split
  · split
    · exact .int _
    · exact .double _
  · exact .int _

/-- The value of a number with the given parts. -/
def numberOf (negative : Bool) (whole : Bytes) (fraction : Option Bytes) (exponent : Option Int) :
    Except Fault Json := do
  let (significand, unread) := gather 0 whole
  match fraction, exponent, unread with
  | none, none, [] => return integerOf negative significand
  | _, _, _ =>
    let digits := fraction.getD []
    let (significand, ignored) := gather significand digits
    let shift : Int := (unread.length : Int) - (digits.length - ignored.length : Nat)
    let x ← doubleOf significand (shift + exponent.getD 0)
    return .double (if negative then x.neg else x)

/-- A number is read part by part. -/
theorem number_eq (negative : Bool) (input : Bytes) : number negative input = (do
    let whole ← wholePart input
    let fraction ← fractionPart whole.2
    let exponent ← exponentPart fraction.2
    return (← numberOf negative whole.1 fraction.1 exponent.1, exponent.2)) := by
  rw [number]
  refine bind_congr fun whole => bind_congr fun fraction => bind_congr fun exponent => ?_
  dsimp only [numberOf]
  generalize gather 0 whole.1 = gathered
  generalize exponent.2 = rest
  generalize exponent.1 = power
  generalize fraction.1 = places
  obtain ⟨significand, unread⟩ := gathered
  rcases places with _ | places <;> rcases power with _ | power <;>
    rcases unread with _ | ⟨first, unread⟩
  case none.none.nil => rfl
  all_goals
    dsimp only
    generalize doubleOf _ _ = reading
    cases reading <;> rfl

theorem everyText_numberOf {p : String → Prop} (negative : Bool) (whole : Bytes)
    (fraction : Option Bytes) (exponent : Option Int) :
    Gives (EveryText p) (numberOf negative whole fraction exponent) := by
  rw [numberOf]
  dsimp only
  split
  · exact gives_ok (everyText_integerOf _ _)
  · exact gives_bind (fun _ _ => trivial : Gives Anything _) fun _ _ => gives_ok (.double _)

theorem reads_number {p : String → Prop} (negative : Bool) :
    Reads bound (EveryText p) (number negative) := by
  intro input hinput
  rw [number_eq]
  refine gives_bind (gives_wholePart hinput) fun whole hwhole => ?_
  refine gives_bind (gives_fractionPart hwhole.2) fun fraction hfraction => ?_
  refine gives_bind (gives_exponentPart hfraction.2) fun exponent hrest => ?_
  exact gives_bind (everyText_numberOf negative _ _ _) fun v hv => gives_ok ⟨hv, hrest.2⟩

/-! ### Strings -/

theorem gives_hexUnit {input : Bytes} :
    Gives (fun result => result.2.length + 4 = input.length) (hexUnit input) := by
  unfold hexUnit
  split
  · split
    · exact gives_ok rfl
    · exact gives_error _
  · exact gives_error _

/-- A unit that must be the second one of a pair. -/
theorem gives_secondUnit {bound : Nat} {input : Bytes} (h : Rest bound input) :
    Gives (fun result => Rest bound result.2) (do
      let (unit, rest) ← hexUnit input
      if 0xdc00 ≤ unit ∧ unit ≤ 0xdfff then return (unit, rest) else .error .malformed) := by
  refine gives_bind gives_hexUnit fun ⟨unit, rest⟩ hlength => ?_
  dsimp only at hlength ⊢
  split
  · exact gives_ok (Nat.le_trans (Nat.le.intro hlength) h)
  · exact gives_error _

theorem gives_trailingUnit {bound : Nat} {input : Bytes} (h : Rest bound input) :
    Gives (fun result => Rest bound result.2) (trailingUnit input) := by
  unfold trailingUnit
  -- the backslash and the letter go before the digits
  cases input with
  | nil => exact gives_error _
  | cons b rest =>
    dsimp only
    split
    · refine gives_bind (gives_ok h.of_cons) fun after hafter => ?_
      cases after with
      | nil => exact gives_error _
      | cons c last =>
        dsimp only
        split
        · exact gives_bind (gives_ok hafter.of_cons) fun _ hlast => gives_secondUnit hlast
        · exact gives_error _
    · exact gives_error _

/-- An escape stands for no more bytes than it is written with. -/
theorem gives_unicodeEscape {input : Bytes} :
    Gives (fun result => result.1.length + result.2.length ≤ input.length)
      (unicodeEscape input) := by
  have hchar : ∀ c, (String.utf8EncodeChar c).length ≤ 4 := by
    intro c
    rw [String.length_utf8EncodeChar]
    exact c.utf8Size_le_four
  refine gives_bind gives_hexUnit fun ⟨unit, rest⟩ hunit => ?_
  dsimp only at hunit ⊢
  split
  · exact gives_error _
  · split
    · refine gives_bind (gives_trailingUnit (Nat.le_refl rest.length))
        fun ⟨second, afterSecond⟩ hsecond => gives_ok ?_
      have hlength := hchar (Char.ofNat (0x10000 + (unit - 0xd800) * 0x400 + (second - 0xdc00)))
      rw [Rest] at hsecond
      dsimp only at hsecond ⊢
      omega
    · have hlength := hchar (Char.ofNat unit)
      refine gives_ok ?_
      dsimp only
      omega

theorem gives_escape {input : Bytes} :
    Gives (fun result => result.1.length + result.2.length ≤ input.length) (escape input) := by
  cases input with
  | nil => exact gives_error _
  | cons b rest =>
    rw [escape]
    split
    · intro result hresult
      exact Nat.le_succ_of_le (gives_unicodeEscape result hresult)
    · split
      · refine gives_ok ?_
        rw [List.length_singleton, List.length_cons, Nat.add_comm]
      · exact gives_error _

/-- A string has no more bytes than it is written with. -/
theorem gives_stringBytes (fuel : Bytes) {read input : Bytes} :
    Gives (fun result => result.1.length + result.2.length ≤ read.length + input.length)
      (stringBytes fuel read input) := by
  induction fuel generalizing read input with
  | nil => exact gives_error _
  | cons first fuel ih =>
    cases input with
    | nil => exact gives_error _
    | cons b rest =>
      rw [stringBytes]
      split
      · refine gives_ok ?_
        dsimp only
        rw [List.length_reverse, List.length_cons]
        omega
      · split
        · cases hread : escape rest with
          | error fault => exact gives_error _
          | ok result =>
            obtain ⟨bytes, afterEscape⟩ := result
            have hlength := gives_escape _ hread
            intro result hresult
            have hrest := ih result hresult
            rw [List.length_append, List.length_reverse] at hrest
            rw [List.length_cons]
            dsimp only at hlength
            omega
        · split
          · exact gives_error _
          · intro result hresult
            have hrest := ih result hresult
            rw [List.length_cons] at hrest ⊢
            omega

/-- A text of at most `bound` bytes. -/
def Extent (bound : Nat) (text : String) : Prop := (Bytes.ofText text).length ≤ bound

theorem reads_string : Reads bound (Extent bound) string := by
  intro input hinput
  refine gives_bind (gives_stringBytes input) fun ⟨bytes, rest⟩ hlength => ?_
  dsimp only at hlength ⊢
  rw [List.length_nil, Nat.zero_add] at hlength
  split
  · rename_i text htext
    refine gives_ok ⟨?_, ?_⟩
    · rw [Extent, Bytes.ofText_of_toText? htext]
      exact Nat.le_trans (Nat.le_of_add_right_le hlength) hinput
    · exact Nat.le_trans (Nat.le_of_add_left_le hlength) hinput
  · exact gives_error _

/-! ### Arrays and objects -/

/-- What is done with the first byte after space. -/
theorem gives_afterSpace {final : α → Prop} {next : UInt8 → Bytes → Except Fault α} {input : Bytes}
    (h : Rest bound input) (hnext : ∀ b rest, Rest bound (b :: rest) → Gives final (next b rest)) :
    Gives final (match skipSpace input with
      | [] => .error .truncated
      | b :: rest => next b rest) := by
  have hspace := h.skipSpace
  cases hskipped : skipSpace input with
  | nil => exact gives_error _
  | cons b rest =>
    rw [hskipped] at hspace
    exact hnext b rest hspace

/-- A byte that is wanted after space. -/
theorem gives_token (token : UInt8) {input : Bytes} (h : Rest bound input) :
    Gives (Rest bound) (match skipSpace input with
      | [] => .error .truncated
      | b :: rest => if b = token then .ok rest else .error .malformed) := by
  refine gives_afterSpace h fun b rest hrest => ?_
  split
  · exact gives_ok hrest.of_cons
  · exact gives_error _

theorem gives_openName {input : Bytes} (h : Rest bound input) :
    Gives (Rest bound) (openName input) :=
  gives_token 0x22 h

theorem gives_colon {input : Bytes} (h : Rest bound input) : Gives (Rest bound) (colon input) :=
  gives_token 0x3a h

section Loops

variable {σ : Type} {good : σ → Prop}

/-- What is done after an item or a member: the next one is read, unless the bracket is closed. -/
theorem gives_nextItem {closing : UInt8} {more : Bytes → Except Fault (σ × Bytes)} {state : σ}
    {rest : Bytes} (hstate : good state) (hrest : Rest bound rest)
    (hmore : ∀ input, Rest bound input → Gives (Leaves bound good) (more input)) :
    Gives (Leaves bound good) (match skipSpace rest with
      | [] => .error .truncated
      | b :: rest =>
        if b = closing then .ok (state, rest)
        else if b = 0x2c then more rest
        else .error .malformed) := by
  refine gives_afterSpace hrest fun b rest hnext => ?_
  split
  · exact gives_ok ⟨hstate, hnext.of_cons⟩
  · split
    · exact hmore rest hnext.of_cons
    · exact gives_error _

theorem reads_loop {closing : UInt8} {element : σ → Reader σ} (helement : ∀ state, good state →
    Reads bound good (element state)) (fuel : Bytes) {state : σ} (hstate : good state) :
    Reads bound good (loop closing element fuel state) := by
  induction fuel generalizing state with
  | nil => exact fun _ _ => gives_error _
  | cons first fuel ih =>
    intro input hinput
    have hread := helement state hstate input hinput
    rw [loop]
    cases helements : element state input with
    | error fault => exact gives_error _
    | ok result =>
      obtain ⟨hnext, hrest⟩ := hread _ helements
      exact gives_nextItem hnext hrest (ih hnext)

theorem reads_enclosed {closing : UInt8} {element : σ → Reader σ} (helement : ∀ state,
    good state → Reads bound good (element state)) {start : σ} (hstart : good start) :
    Reads bound good (enclosed closing element start) := by
  intro input hinput
  refine gives_afterSpace hinput fun b rest hrest => ?_
  split
  · exact gives_ok ⟨hstart, hrest.of_cons⟩
  · exact reads_loop helement _ hstart _ hrest

theorem reads_itemsWith {item : σ → Reader σ} (hitem : ∀ state, good state →
    Reads bound good (item state)) {start : σ} (hstart : good start) :
    Reads bound good (itemsWith item start) := by
  rw [itemsWith_eq]
  exact reads_enclosed hitem hstart

theorem reads_membersWith {member : σ → Reader σ} (hmember : ∀ state, good state →
    Reads bound good (member state)) {start : σ} (hstart : good start) :
    Reads bound good (membersWith member start) := by
  rw [membersWith_eq]
  refine reads_enclosed (fun state hstate input hinput => ?_) hstart
  exact gives_bind (gives_openName hinput) fun rest hrest => hmember state hstate rest hrest

end Loops

/-! ### Values -/

theorem reads_refuse {good : α → Prop} (fault : Fault) : Reads bound good (refuse fault) :=
  fun _ _ => gives_error fault

/-- A value is good if its arrays and objects are. -/
theorem reads_valueWith {array object : Reader Json}
    (harray : Reads bound (EveryText (Extent bound)) array)
    (hobject : Reads bound (EveryText (Extent bound)) object) :
    Reads bound (EveryText (Extent bound)) (valueWith array object) := by
  intro input hinput
  refine gives_afterSpace hinput fun b rest hrest => ?_
  have hword : ∀ (letters : Bytes) (value : Json), EveryText (Extent bound) value →
      Gives (Leaves bound (EveryText (Extent bound)))
        ((word letters rest).map fun rest => (value, rest)) := fun letters value hvalue =>
    gives_map (gives_word letters hrest.of_cons) fun _ hafter => ⟨hvalue, hafter⟩
  apply gives_ite (hword _ _ .null)
  apply gives_ite (hword _ _ (.bool true))
  apply gives_ite (hword _ _ (.bool false))
  apply gives_ite (reads_number true rest hrest.of_cons)
  apply gives_ite (reads_number false (b :: rest) hrest)
  refine gives_ite
    (gives_map (reads_string rest hrest.of_cons) fun _ htext => ⟨.str htext.1, htext.2⟩) ?_
  apply gives_ite (harray rest hrest.of_cons)
  exact gives_ite (hobject rest hrest.of_cons) (gives_error _)

/-- Every text in a value has at most as many bytes as the value is written with. -/
theorem reads_value (depth : Nat) : Reads bound (EveryText (Extent bound)) (value depth) := by
  induction depth with
  | zero => exact reads_valueWith (reads_refuse _) (reads_refuse _)
  | succ depth ih =>
    have hitem : ∀ read : List Json, (∀ item ∈ read, EveryText (Extent bound) item) →
        Reads bound (fun read => ∀ item ∈ read, EveryText (Extent bound) item)
          (itemOf (value depth) read) := fun read hread input hinput =>
      gives_map (ih input hinput) fun _ hvalue =>
        ⟨List.forall_mem_cons.2 ⟨hvalue.1, hread⟩, hvalue.2⟩
    have hmember : ∀ read : List (String × Json),
        (∀ member ∈ read, EveryText (Extent bound) member.2) →
        Reads bound (fun read => ∀ member ∈ read, EveryText (Extent bound) member.2)
          (memberOf (value depth) read) := by
      intro read hread input hinput
      refine gives_bind (reads_string input hinput) fun name hname => ?_
      refine gives_bind (gives_colon hname.2) fun afterColon hcolon => ?_
      exact gives_bind (ih afterColon hcolon) fun found hfound =>
        gives_ok ⟨List.forall_mem_cons.2 ⟨hfound.1, hread⟩, hfound.2⟩
    apply reads_valueWith
    · intro input hinput
      refine gives_map (reads_itemsWith hitem (List.forall_mem_nil _) input hinput) ?_
      exact fun _ hitems => ⟨.arr fun item h => hitems.1 item (List.mem_reverse.1 h), hitems.2⟩
    · intro input hinput
      refine gives_map (reads_membersWith hmember (List.forall_mem_nil _) input hinput) ?_
      exact fun _ hmembers =>
        ⟨.obj fun member h => hmembers.1 member (List.mem_reverse.1 h), hmembers.2⟩

end FieldVault.Json
