import FieldVault.ContentDigest
import Mathlib.Data.List.Basic

/-!
# Content is hashed the same in pieces

A hash does not depend on the pieces that it takes a message in (`Hasher.update_update`). A source
is read in calls, and each call that does not stop the reading takes a step of the script or bytes
of the content, so some call does (`exists_stopsAt`). The digest is that of everything delivered
before it (`ofSource_of_stopsAt`), however the pieces fall (`source_read_to_first_stop`). So content
has one digest, whatever the threshold (`auto_eq`), and two digests are the same exactly if the
hashes are (`ofBytes_eq_iff`).
-/

set_option autoImplicit false

namespace FieldVault

/-! ### Hashes in progress -/

namespace Sha2

variable {ω : Type} [Family ω]

/-- Compression of all whole blocks, with the bytes left over. -/
def absorbAll (r : Registers ω) (bytes : Bytes) : Registers ω × Bytes :=
  absorb (bytes.length / blockBytes ω) r bytes

theorem absorb_add (first second : Nat) (r : Registers ω) (bytes : Bytes) :
    absorb (first + second) r bytes =
      absorb second (absorb first r bytes).1 (absorb first r bytes).2 := by
  induction first generalizing r bytes with
  | zero => rw [Nat.zero_add, absorb]
  | succ first ih => rw [Nat.succ_add, absorb, ih, absorb]

theorem absorb_snd (count : Nat) (r : Registers ω) (bytes : Bytes) :
    (absorb count r bytes).2 = bytes.drop (count * blockBytes ω) := by
  induction count generalizing r bytes with
  | zero => rw [absorb, Nat.zero_mul, List.drop_zero]
  | succ count ih => rw [absorb, ih, List.drop_drop, Nat.succ_mul, Nat.add_comm]

/-- What stands behind the blocks is left over. -/
theorem absorb_append {count : Nat} (r : Registers ω) {first : Bytes} (second : Bytes)
    (h : count * blockBytes ω ≤ first.length) :
    absorb count r (first ++ second) =
      ((absorb count r first).1, (absorb count r first).2 ++ second) := by
  induction count generalizing r first with
  | zero => rfl
  | succ count ih =>
    rw [Nat.succ_mul] at h
    have hblock : blockBytes ω ≤ first.length := Nat.le_trans (Nat.le_add_left _ _) h
    rw [absorb, absorb, List.take_append_of_le_length hblock,
      List.drop_append_of_le_length hblock]
    apply ih
    rw [List.length_drop]
    omega

/-- The blocks of a text are those of its first part, and those of what is left with the rest. -/
theorem div_add_length (size first second : Nat) :
    (first + second) / size = first / size + (first - first / size * size + second) / size := by
  rcases Nat.eq_zero_or_pos size with rfl | hpos
  · simp
  · have hmod : first = size * (first / size) + (first - first / size * size) := by
      have hle := Nat.div_mul_le_self first size
      rw [Nat.mul_comm size]
      omega
    conv_lhs => rw [hmod, Nat.add_assoc]
    rw [Nat.mul_add_div hpos]

theorem absorbAll_append (r : Registers ω) (first second : Bytes) :
    absorbAll r (first ++ second) =
      absorbAll (absorbAll r first).1 ((absorbAll r first).2 ++ second) := by
  have hleft : (absorb (first.length / blockBytes ω) r first).2.length =
      first.length - first.length / blockBytes ω * blockBytes ω := by
    rw [absorb_snd, List.length_drop]
  rw [absorbAll, absorbAll, absorbAll, List.length_append, List.length_append, hleft,
    div_add_length, absorb_add, absorb_append r second (Nat.div_mul_le_self _ _)]

theorem Registers.length_toBytes (r : Registers ω) :
    r.toBytes.length = 8 * Family.wordBytes ω := by
  simp only [toBytes, List.length_flatMap, Bytes.length_ofNat, List.map_cons, List.map_nil,
    List.sum_cons, List.sum_nil]
  omega

theorem length_sha512 (message : Bytes) : (sha512 message).length = 64 :=
  Registers.length_toBytes _

namespace Hasher

theorem update_eq (h : Hasher ω) (piece : Bytes) :
    h.update piece = ⟨(absorbAll h.registers (h.pending ++ piece)).1,
      (absorbAll h.registers (h.pending ++ piece)).2, h.length + piece.length⟩ := rfl

/-- Two pieces one after the other are taken in like one. -/
theorem update_update (h : Hasher ω) (first second : Bytes) :
    (h.update first).update second = h.update (first ++ second) := by
  have hall := absorbAll_append h.registers (h.pending ++ first) second
  rw [List.append_assoc] at hall
  rw [update_eq h (first ++ second), hall, List.length_append, ← Nat.add_assoc]
  rfl

/-- A hash of nothing yet has taken in an empty piece. -/
theorem update_nil : (start ω).update [] = start ω := by
  rw [update_eq]
  simp [absorbAll, start, absorb]

/-- A message that was taken in has its digest. -/
theorem finish_update (message : Bytes) : ((start ω).update message).finish = digest ω message := by
  have hall := absorbAll_append (Family.initial : Registers ω) message (padding ω message.length)
  have hfinish : ((start ω).update message).finish =
      (absorbAll ((start ω).update message).registers
        (((start ω).update message).pending ++
          padding ω ((start ω).update message).length)).1.toBytes := rfl
  rw [hfinish, update_eq]
  simp only [start, List.nil_append, Nat.zero_add]
  rw [← hall]
  rfl

/-- The published digest of `abc`, taken in as two pieces. -/
example :
    (((start UInt64).update (Bytes.ofText "a")).update (Bytes.ofText "bc")).finish =
      Bytes.ofNat 64
        (0xddaf35a193617abacc417349ae20413112e6fa4e89a97ea20a9eeee64b55d39a <<< 256 +
          0x2192992a274fc1a836ba3c23a3feebbd454d4423643ce80e2a9ac94fa54ca49f) := by
  decide +kernel

end Hasher

end Sha2

/-! ### Hexadecimal text -/

namespace Hex

/-- A lowercase hexadecimal digit. -/
def IsDigit (c : Char) : Prop := c ∈ ['0', '1', '2', '3', '4', '5', '6', '7', '8', '9',
  'a', 'b', 'c', 'd', 'e', 'f']

theorem isDigit_digit {n : Nat} (h : n < 16) : IsDigit (digit n) := by
  have hall : ∀ n < 16, digit n ∈ ['0', '1', '2', '3', '4', '5', '6', '7', '8', '9',
      'a', 'b', 'c', 'd', 'e', 'f'] := by decide
  exact hall n h

/-- Only lowercase digits are written. -/
theorem isDigit_of_mem_encode {bytes : Bytes} {c : Char} (h : c ∈ (encode bytes).toList) :
    IsDigit c := by
  rw [encode, String.toList_ofList, List.mem_flatMap] at h
  obtain ⟨b, -, hc⟩ := h
  have hb := b.toNat_lt
  rcases List.mem_cons.1 hc with rfl | hc
  · exact isDigit_digit (by omega)
  · rw [List.mem_singleton] at hc
    rw [hc]
    exact isDigit_digit (by omega)

theorem digit_injective {m n : Nat} (hm : m < 16) (hn : n < 16) (h : digit m = digit n) :
    m = n := by
  have hall : ∀ m < 16, ∀ n < 16, digit m = digit n → m = n := by decide
  exact hall m hm n hn h

theorem byteDigits_injective {a b : UInt8} (h : byteDigits a = byteDigits b) : a = b := by
  obtain ⟨hhigh, hrest⟩ := List.cons.inj h
  obtain ⟨hlow, -⟩ := List.cons.inj hrest
  have ha := a.toNat_lt
  have hb := b.toNat_lt
  have hdiv := digit_injective (by omega) (by omega) hhigh
  have hmod := digit_injective (by omega) (by omega) hlow
  apply UInt8.toNat_inj.1
  omega

theorem encode_injective {a b : Bytes} (h : encode a = encode b) : a = b := by
  have hdigits : a.flatMap byteDigits = b.flatMap byteDigits := String.ofList_injective h
  clear h
  induction a generalizing b with
  | nil =>
    cases b with
    | nil => rfl
    | cons y b => cases hdigits
  | cons x a ih =>
    cases b with
    | nil => cases hdigits
    | cons y b =>
      rw [List.flatMap_cons, List.flatMap_cons] at hdigits
      obtain ⟨hbyte, hrest⟩ := List.append_inj hdigits rfl
      rw [byteDigits_injective hbyte, ih hrest]

end Hex

/-! ### Reading a source -/

namespace Source

open ContentDigest (chunkSize)

/-- The bytes that an outcome delivers. -/
def Outcome.piece : Outcome → Bytes
  | .delivered piece => piece
  | _ => []

/-- Reading goes on after bytes and after an interruption. -/
def Outcome.GoesOn : Outcome → Prop
  | .delivered piece => piece ≠ []
  | .interrupted => True
  | .failed _ => False

/-- What the reading comes to if it ends so: what was read before, or the fault. -/
def Outcome.ending {α : Type} (content : α) : Outcome → Except ReadFault α
  | .failed fault => .error fault
  | _ => .ok content

/-- The source after some calls. -/
def after (s : Source) : Nat → Source
  | 0 => s
  | n + 1 => after (s.read chunkSize).2 n

/-- The outcome of the call that comes after some others. -/
def outcome (s : Source) (n : Nat) : Outcome := ((s.after n).read chunkSize).1

/-- What the first calls deliver in all. -/
def deliveredBy (s : Source) (n : Nat) : Bytes :=
  (List.range n).flatMap fun k => (s.outcome k).piece

theorem deliveredBy_succ (s : Source) (n : Nat) :
    s.deliveredBy (n + 1) = (s.outcome 0).piece ++ (s.read chunkSize).2.deliveredBy n := by
  rw [deliveredBy, List.range_succ_eq_map, List.flatMap_cons, List.flatMap_map]
  rfl

/-! What one call does. -/

section

variable (size : Nat) (s : Source)

theorem reads_read : (s.read size).2.reads = s.reads + 1 := by
  obtain ⟨content, _ | ⟨_ | _ | _, script⟩, reads, closed⟩ := s <;> rfl

theorem script_read : (s.read size).2.script = s.script.tail := by
  obtain ⟨content, _ | ⟨_ | _ | _, script⟩, reads, closed⟩ := s <;> rfl

theorem closed_read : (s.read size).2.closed = s.closed := by
  obtain ⟨content, _ | ⟨_ | _ | _, script⟩, reads, closed⟩ := s <;> rfl

/-- What a call delivers is taken off the front of the content. -/
theorem piece_append_content_read :
    (s.read size).1.piece ++ (s.read size).2.content = s.content := by
  obtain ⟨content, _ | ⟨_ | _ | _, script⟩, reads, closed⟩ := s
  · exact List.take_append_drop _ _
  · exact List.take_append_drop _ _
  · rfl
  · rfl

/-- A call takes a step of the script, or else all it asked for. -/
theorem callLimit_read_lt (h : (s.read size).1.GoesOn) :
    (s.read size).2.callLimit < s.callLimit := by
  obtain ⟨content, _ | ⟨step, script⟩, reads, closed⟩ := s
  · -- without a script, a piece that is not empty makes the content shorter
    have hpiece : content.take size ≠ [] := h
    have hpos : 0 < (content.take size).length := List.length_pos_iff.2 hpiece
    rw [List.length_take] at hpos
    have hshorter : (content.drop size).length < content.length := by
      rw [List.length_drop]
      omega
    exact Nat.succ_lt_succ (Nat.add_lt_add_left hshorter 0)
  · have hcontent : ((Source.mk content (step :: script) reads closed).read size).2.content.length ≤
        content.length := by
      have hall := congrArg List.length
        (piece_append_content_read size ⟨content, step :: script, reads, closed⟩)
      rw [List.length_append] at hall
      exact Nat.le.intro ((Nat.add_comm _ _).trans hall)
    rw [callLimit, callLimit, script_read, List.tail_cons, List.length_cons]
    dsimp only
    omega

end

/-! What a run of calls does. -/

/-- One more call at the end of a run. -/
theorem after_succ (s : Source) (n : Nat) : s.after (n + 1) = ((s.after n).read chunkSize).2 := by
  induction n generalizing s with
  | zero => rfl
  | succ n ih => exact ih (s.read chunkSize).2

theorem reads_after (s : Source) (n : Nat) : (s.after n).reads = s.reads + n := by
  induction n generalizing s with
  | zero => rfl
  | succ n ih => rw [after, ih, reads_read, Nat.add_right_comm, Nat.add_assoc]

theorem script_after (s : Source) (n : Nat) : (s.after n).script = s.script.drop n := by
  induction n generalizing s with
  | zero => rfl
  | succ n ih => rw [after, ih, script_read, List.drop_tail]

theorem closed_after (s : Source) (n : Nat) : (s.after n).closed = s.closed := by
  induction n generalizing s with
  | zero => rfl
  | succ n ih => rw [after, ih, closed_read]

/-- What was delivered and what is left make up the content. -/
theorem deliveredBy_append_content (s : Source) (n : Nat) :
    s.deliveredBy n ++ (s.after n).content = s.content := by
  induction n generalizing s with
  | zero => rfl
  | succ n ih =>
    rw [deliveredBy_succ, after, List.append_assoc, ih]
    exact piece_append_content_read chunkSize s

/-- The outcome after which reading does not go on has no bytes. -/
theorem Outcome.piece_of_not_goesOn {o : Outcome} (h : ¬ o.GoesOn) : o.piece = [] := by
  cases o with
  | delivered piece => exact Decidable.of_not_not h
  | interrupted => rfl
  | failed fault => rfl

/-- A call that stops the reading, after calls that do not. -/
structure StopsAt (s : Source) (n : Nat) : Prop where
  goesOn : ∀ k < n, (s.outcome k).GoesOn
  stops : ¬ (s.outcome n).GoesOn

theorem StopsAt.succ {s : Source} {n : Nat} (hfirst : (s.outcome 0).GoesOn)
    (h : (s.read chunkSize).2.StopsAt n) : s.StopsAt (n + 1) where
  goesOn k hk := by
    cases k with
    | zero => exact hfirst
    | succ k => exact h.goesOn k (Nat.lt_of_succ_lt_succ hk)
  stops := h.stops

/-- The call that stops the reading takes nothing. -/
theorem StopsAt.deliveredBy_append_content {s : Source} {n : Nat} (h : s.StopsAt n) :
    s.deliveredBy n ++ (s.after (n + 1)).content = s.content := by
  have hpiece : (s.outcome n).piece = [] := Outcome.piece_of_not_goesOn h.stops
  have hall := piece_append_content_read chunkSize (s.after n)
  rw [← after_succ] at hall
  change (s.outcome n).piece ++ _ = _ at hall
  rw [hpiece, List.nil_append] at hall
  rw [hall]
  exact Source.deliveredBy_append_content s n

/-- The reading stops within the limit on calls. -/
theorem exists_stopsAt (s : Source) : ∃ n < s.callLimit, s.StopsAt n := by
  by_cases h : (s.outcome 0).GoesOn
  · have hless : (s.read chunkSize).2.callLimit < s.callLimit := callLimit_read_lt chunkSize s h
    obtain ⟨n, hn, hstops⟩ := exists_stopsAt (s.read chunkSize).2
    exact ⟨n + 1, by omega, hstops.succ h⟩
  · refine ⟨0, Nat.succ_pos _, ?_, h⟩
    exact fun k hk => absurd hk (Nat.not_lt_zero k)
termination_by s.callLimit

end Source

/-! ### Digests of content -/

namespace ContentDigest

open Sha2 (Hasher)

theorem length_ofBytes (content : Bytes) : (ofBytes content).length = 128 := by
  rw [ofBytes, Hex.length_encode, Sha2.length_sha512]

section

variable {calls n : Nat} {source : Source}

/-- A call that goes on adds its bytes to those before. -/
theorem drain_succ_of_goesOn (before : Bytes) (h : (source.outcome 0).GoesOn) :
    drain (calls + 1) ((Hasher.start UInt64).update before) source =
      drain calls ((Hasher.start UInt64).update (before ++ (source.outcome 0).piece))
        (source.read chunkSize).2 := by
  rw [Source.outcome, Source.after] at h ⊢
  rw [drain]
  generalize source.read chunkSize = call at h ⊢
  rcases call with ⟨piece | _ | fault, next⟩
  · cases piece with
    | nil => exact absurd rfl h
    | cons b piece => exact congrArg (drain calls · next) (Hasher.update_update _ _ _)
  · dsimp only [Source.Outcome.piece]
    rw [List.append_nil]
  · exact absurd h id

/-- Any other call ends the reading. -/
theorem drain_succ_of_not_goesOn {hasher : Hasher UInt64} (h : ¬ (source.outcome 0).GoesOn) :
    drain (calls + 1) hasher source =
      ((source.outcome 0).ending hasher, (source.read chunkSize).2) := by
  rw [Source.outcome, Source.after] at h ⊢
  rw [drain]
  generalize source.read chunkSize = call at h ⊢
  rcases call with ⟨piece | _ | fault, next⟩
  · have hnil : piece = [] := Decidable.of_not_not h
    rw [hnil]
    rfl
  · exact absurd trivial h
  · rfl

/-- A run of calls that go on leads to the hash of what was delivered. -/
theorem drain_add_of_goesOn (before : Bytes) (h : ∀ k < n, (source.outcome k).GoesOn) :
    drain (calls + n) ((Hasher.start UInt64).update before) source =
      drain calls ((Hasher.start UInt64).update (before ++ source.deliveredBy n))
        (source.after n) := by
  induction n generalizing before source with
  | zero =>
    rw [Source.deliveredBy, List.range_zero, List.flatMap_nil, List.append_nil]
    rfl
  | succ n ih =>
    have hrest : ∀ k < n, ((source.read chunkSize).2.outcome k).GoesOn :=
      fun k hk => h (k + 1) (Nat.succ_lt_succ hk)
    rw [← Nat.add_assoc, drain_succ_of_goesOn before (h 0 (Nat.succ_pos n)), ih _ hrest,
      List.append_assoc, ← Source.deliveredBy_succ]
    rfl

/-- The calls up to the one that stops the reading are made, whatever the limit above them. -/
theorem drain_of_stopsAt (h : source.StopsAt n) (hcalls : n < calls) :
    drain calls (Hasher.start UInt64) source =
      ((source.outcome n).ending ((Hasher.start UInt64).update (source.deliveredBy n)),
        source.after (n + 1)) := by
  obtain ⟨more, rfl⟩ := Nat.exists_eq_add_of_lt hcalls
  have hstops : ¬ ((source.after n).outcome 0).GoesOn := h.stops
  rw [Nat.add_assoc, Nat.add_comm, ← Hasher.update_nil, drain_add_of_goesOn [] h.goesOn,
    drain_succ_of_not_goesOn hstops, List.nil_append, Hasher.update_nil, Source.after_succ]
  rfl

theorem ofSource_of_stopsAt (h : source.StopsAt n) (hlimit : n < source.callLimit) :
    ofSource source = ((source.outcome n).ending (ofBytes (source.deliveredBy n)),
      (source.after (n + 1)).close) := by
  have hdigest : Hex.encode ((Hasher.start UInt64).update (source.deliveredBy n)).finish =
      ofBytes (source.deliveredBy n) := congrArg Hex.encode (Hasher.finish_update _)
  rw [ofSource, drain_of_stopsAt h hlimit]
  cases source.outcome n with
  | failed fault => rfl
  | _ =>
    dsimp only [Source.Outcome.ending, Except.map]
    rw [hdigest]

/-- A source without a script is read to its end. -/
theorem ofSource_start_nil (content : Bytes) :
    (ofSource (.start content [])).1 = .ok (ofBytes content) := by
  obtain ⟨n, hlimit, hstops⟩ := (Source.start content []).exists_stopsAt
  have hall := Source.deliveredBy_append_content (.start content []) n
  have houtcome : (Source.start content []).outcome n =
      .delivered (((Source.start content []).after n).content.take chunkSize) := by
    rw [Source.outcome, Source.read, Source.script_after, Source.start, List.drop_nil]
  have hstop := hstops.stops
  rw [houtcome] at hstop
  -- nothing was delivered, so nothing is left
  have hnil : ((Source.start content []).after n).content = [] :=
    (List.take_eq_nil_iff.1 (Decidable.of_not_not hstop)).resolve_left (by decide)
  rw [hnil, List.append_nil] at hall
  rw [ofSource_of_stopsAt hstops hlimit, houtcome, hall]
  rfl

end

/-- Content has one digest, whether or not it is longer than the threshold. -/
theorem auto_eq (content : Bytes) (threshold : Nat) : auto content threshold = ofBytes content := by
  rw [auto, ofSource_start_nil]
  exact ite_self _

/-- Two digests are the same exactly if the hashes are. -/
theorem ofBytes_eq_iff {a b : Bytes} : ofBytes a = ofBytes b ↔ Sha2.sha512 a = Sha2.sha512 b := by
  constructor
  · intro h
    exact Hex.encode_injective h
  · intro h
    rw [ofBytes, ofBytes, h]

/-- The reading of a source ends, whatever the script, with the first call that fails or delivers
nothing. In the first case the fault is the result. In the second case the result is the digest of
what the calls before it delivered, a front part of the content, in lowercase digits. Either way one
call more was made than there are calls before it, and the source is closed once. No limit on the
calls above their number makes a difference. -/
theorem source_read_to_first_stop (content : Bytes) (script : List ReadStep) :
    let s := Source.start content script
    ∃ n,
      (∀ k < n, (s.outcome k).GoesOn) ∧ ¬ (s.outcome n).GoesOn ∧
      (s.outcome n = .delivered [] →
        (ofSource s).1 = .ok (Hex.encode (Sha2.sha512 (s.deliveredBy n)))) ∧
      (∀ fault, s.outcome n = .failed fault → (ofSource s).1 = .error fault) ∧
      (∀ digest, (ofSource s).1 = .ok digest →
        digest.length = 128 ∧ ∀ c ∈ digest.toList, Hex.IsDigit c) ∧
      s.deliveredBy n ++ (ofSource s).2.content = content ∧
      (ofSource s).2.reads = n + 1 ∧ (ofSource s).2.closed = 1 ∧
      ∀ calls, n < calls → drain calls (Hasher.start UInt64) s =
        drain s.callLimit (Hasher.start UInt64) s := by
  intro s
  obtain ⟨n, hlimit, hstops⟩ := s.exists_stopsAt
  have hread := ofSource_of_stopsAt hstops hlimit
  refine ⟨n, hstops.goesOn, hstops.stops, fun hend => ?_, fun fault hfailed => ?_,
    fun digest hdigest => ?_, ?_, ?_, ?_, fun calls hcalls => ?_⟩
  · rw [hread, hend]
    rfl
  · rw [hread, hfailed]
    rfl
  · rw [hread] at hdigest
    have hof : ofBytes (s.deliveredBy n) = digest := by
      cases houtcome : s.outcome n with
      | failed fault =>
        rw [houtcome] at hdigest
        cases hdigest
      | _ =>
        rw [houtcome] at hdigest
        exact Except.ok.inj hdigest
    rw [← hof]
    exact ⟨length_ofBytes _, fun c => Hex.isDigit_of_mem_encode⟩
  · rw [hread]
    exact hstops.deliveredBy_append_content
  · rw [hread]
    exact (Source.reads_after s (n + 1)).trans (Nat.zero_add _)
  · rw [hread]
    exact congrArg (· + 1) (Source.closed_after s (n + 1))
  · rw [drain_of_stopsAt hstops hcalls, drain_of_stopsAt hstops hlimit]

/-- An interruption is passed over, and a call that delivers nothing ends the content. -/
example : (ofSource (.start [1, 2, 3] [.deliver 2, .interrupted, .deliver 0])).2 =
    ⟨[3], [], 3, 1⟩ := rfl

end ContentDigest

end FieldVault
