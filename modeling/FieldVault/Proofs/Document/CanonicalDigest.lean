import FieldVault.Proofs.Document.Digest
import FieldVault.Proofs.Json.Layout
import FieldVault.Proofs.Json.Reordered

/-!
# The digest of a document is canonical

A document does not remember how its text was laid out or in what order its members came: texts of
one value, or of reorderings of each other, are read as one document. So they have one digest, the
hash of the compact form of the document, and whether that form is hashed at once or read from a
source makes no difference (`texts_digested_alike`).
-/

set_option autoImplicit false

namespace FieldVault.Document

open Json

/-- Texts of reorderings are read as one document. -/
theorem parse_eq_of_reordered {v w : Json} {text other : Bytes} (htext : parseTree text = .ok v)
    (hother : parseTree other = .ok w) (h : Reordered v w) :
    parse text = .ok v.canonical ∧ parse other = .ok v.canonical := by
  rw [parse, parse, htext, hother]
  exact ⟨rfl, congrArg Except.ok h.canonical_eq.symm⟩

/-- The digest of a document is the hash of its compact form, whatever the threshold. -/
theorem digest?_eq_encode_sha512 (payload : Json) (threshold : Nat) :
    digest? payload threshold = .ok (Hex.encode (Sha2.sha512 payload.encode)) := by
  rw [digest?_eq, digest, ContentDigest.auto_eq]
  rfl

/-- Texts that differ in the space between their tokens, in the spelling of their strings, and in
the order of the members of their objects have one digest, for any two thresholds: the layout of a
value is forgotten when it is read, the order of members when it becomes a document, and the digest
is the hash of the compact form, in lowercase digits. Content is hashed at once and from a source
with the same result, whatever its length and the threshold. -/
theorem texts_digested_alike :
    (∀ (v : Json) (text : Bytes), Layout nestingLimit v text → parseTree text = .ok v) ∧
    (∀ (v w : Json) (text other : Bytes), parseTree text = .ok v → parseTree other = .ok w →
      Reordered v w →
      ∃ document, parse text = .ok document ∧ parse other = .ok document ∧
        ∃ digest : String, digest = Hex.encode (Sha2.sha512 document.encode) ∧
          digest.length = 128 ∧ (∀ c ∈ digest.toList, Hex.IsDigit c) ∧
          ∀ threshold, digest? document threshold = .ok digest) ∧
    (∀ (content : Bytes) (threshold : Nat),
      (ContentDigest.ofSource (.start content [])).1 = .ok (ContentDigest.ofBytes content) ∧
      ContentDigest.auto content threshold = ContentDigest.ofBytes content) := by
  refine ⟨fun v text => parseTree_of_layout, ?_, fun content threshold =>
    ⟨ContentDigest.ofSource_start_nil content, ContentDigest.auto_eq content threshold⟩⟩
  intro v w text other htext hother h
  obtain ⟨hparse, hsame⟩ := parse_eq_of_reordered htext hother h
  refine ⟨v.canonical, hparse, hsame, _, rfl, ?_, fun c => Hex.isDigit_of_mem_encode,
    digest?_eq_encode_sha512 v.canonical⟩
  exact ContentDigest.length_ofBytes _

/-- An object with two members, and one with the members the other way round, space between them,
and a name and a text spelled with escapes. -/
theorem escaped_and_reordered_digested_alike :
    let list : Json := .arr [.str "A"]
    let text := objectText
      [[0x22, 0x61, 0x22, 0x3a, 0x31], [0x22, 0x62, 0x22, 0x3a, 0x5b, 0x22, 0x41, 0x22, 0x5d]]
    let other := objectText
      [[0x20, 0x22, 0x62, 0x22, 0x0a, 0x3a, 0x5b, 0x22, 0x5c, 0x75, 0x30, 0x30, 0x34, 0x31, 0x22,
        0x5d], [0x22, 0x5c, 0x75, 0x30, 0x30, 0x36, 0x31, 0x22, 0x3a, 0x31]]
    Layout nestingLimit (.obj [("a", .int 1), ("b", list)]) text ∧
    Layout nestingLimit (.obj [("b", list), ("a", .int 1)]) other ∧
    parseTree text = .ok (.obj [("a", .int 1), ("b", list)]) ∧
    parseTree other = .ok (.obj [("b", list), ("a", .int 1)]) ∧
    Reordered (.obj [("a", .int 1), ("b", list)]) (.obj [("b", list), ("a", .int 1)]) ∧
    ∃ document, parse text = .ok document ∧ parse other = .ok document ∧
      ∃ digest, digest? document 0 = .ok digest ∧ digest? document 1000 = .ok digest := by
  intro list text other
  have hA : SpellsAll ['A'] [0x41] := .cons (.plain (by decide) (by decide) (by decide)) .nil
  have ha : SpellsAll "a".toList [0x61] := .cons (.plain (by decide) (by decide) (by decide)) .nil
  have hb : SpellsAll "b".toList [0x62] := .cons (.plain (by decide) (by decide) (by decide)) .nil
  have hescapedA : SpellsAll ['A'] [0x5c, 0x75, 0x30, 0x30, 0x34, 0x31] :=
    .cons (.unit (by decide) (.digits (.inl rfl) (.inl rfl) (.inl rfl) (.inl rfl))) .nil
  have hescaped : SpellsAll "a".toList [0x5c, 0x75, 0x30, 0x30, 0x36, 0x31] :=
    .cons (.unit (by decide) (.digits (.inl rfl) (.inl rfl) (.inl rfl) (.inl rfl))) .nil
  have hone : Layout 126 (.int 1) ((if false then [0x2d] else []) ++ [0x31]) := .number 126 rfl
  have hlist : ∀ {spelled : Bytes}, SpellsAll ['A'] spelled → Layout 126 list
      (0x5b :: ([0x2c].intercalate [0x22 :: (spelled ++ [0x22])] ++ [0x5d])) := by
    intro spelled h
    have hitem : Layout 125 (.str "A") (0x22 :: (spelled ++ [0x22])) := .str 125 h
    have hitems : ∀ item ∈ [(Json.str "A", 0x22 :: (spelled ++ [0x22]))],
        Layout 125 item.1 item.2 := List.forall_mem_singleton.2 hitem
    exact .arr hitems
  have hblank : ∀ {bytes : Bytes}, bytes.all isSpace = true → Blank bytes := List.all_eq_true.1
  have hboth : ∀ {p : MemberLayout → Prop} {first second : MemberLayout}, p first → p second →
      ∀ m ∈ [first, second], p m := by
    intro p first second hfirst hsecond
    exact List.forall_mem_cons.2 ⟨hfirst, List.forall_mem_singleton.2 hsecond⟩
  let plainA : MemberLayout := ⟨"a", .int 1, [], [0x61], [], [0x31]⟩
  let plainB : MemberLayout := ⟨"b", list, [], [0x62], [], [0x5b, 0x22, 0x41, 0x22, 0x5d]⟩
  let spacedB : MemberLayout := ⟨"b", list, [0x20], [0x62], [0x0a],
    [0x5b, 0x22, 0x5c, 0x75, 0x30, 0x30, 0x34, 0x31, 0x22, 0x5d]⟩
  let escapedA : MemberLayout :=
    ⟨"a", .int 1, [], [0x5c, 0x75, 0x30, 0x30, 0x36, 0x31], [], [0x31]⟩
  have hplainA : plainA.Named := ⟨hblank rfl, ha, hblank rfl⟩
  have hplainB : plainB.Named := ⟨hblank rfl, hb, hblank rfl⟩
  have hspacedB : spacedB.Named := ⟨hblank rfl, hb, hblank rfl⟩
  have hescapedName : escapedA.Named := ⟨hblank rfl, hescaped, hblank rfl⟩
  have htext : Layout nestingLimit (.obj ([plainA, plainB].map MemberLayout.member))
      (objectText ([plainA, plainB].map MemberLayout.bytes)) :=
    .obj (hboth hplainA hplainB) (hboth hone (hlist hA))
  have hother : Layout nestingLimit (.obj ([spacedB, escapedA].map MemberLayout.member))
      (objectText ([spacedB, escapedA].map MemberLayout.bytes)) :=
    .obj (hboth hspacedB hescapedName) (hboth (hlist hescapedA) hone)
  have hsame : Reordered list list := by
    refine .arr rfl ?_
    exact List.forall_mem_singleton.2 (.str "A")
  have hreordered : Reordered (.obj [("a", .int 1), ("b", list)])
      (.obj [("b", list), ("a", .int 1)]) := by
    refine .obj (by decide) (.swap "b" "a" []) ?_
    intro name v w hv hw
    simp only [List.mem_cons, List.not_mem_nil, or_false, Prod.mk.injEq] at hv hw
    rcases hv with ⟨rfl, rfl⟩ | ⟨rfl, rfl⟩ <;> rcases hw with ⟨hname, rfl⟩ | ⟨hname, rfl⟩
    · exact absurd hname (by decide)
    · exact .int 1
    · exact hsame
    · exact absurd hname (by decide)
  obtain ⟨hlayout, hdigest, -⟩ := texts_digested_alike
  obtain ⟨document, hparse, hparseOther, digest, -, -, -, hall⟩ :=
    hdigest _ _ _ _ (hlayout _ _ htext) (hlayout _ _ hother) hreordered
  exact ⟨htext, hother, hlayout _ _ htext, hlayout _ _ hother, hreordered, document, hparse,
    hparseOther, digest, hall 0, hall 1000⟩

end FieldVault.Document
