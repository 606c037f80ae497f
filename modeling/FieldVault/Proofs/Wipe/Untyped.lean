import FieldVault.Proofs.Vault
import FieldVault.Proofs.Wipe.Names
import Mathlib.Tactic.ByContra
import Mathlib.Tactic.Push

/-!
# Untyped values are tracked as a whole or not at all

An untyped value is a tree whose inner nodes are groups. It can be wiped if nothing that cannot be
stands anywhere in it (`Untyped.IsWipeable`); then it holds the same values as the list of all that
were handed over with it (`exists_classify_of_isWipeable`), and otherwise it is refused, however
much of it could be wiped (`classify_of_not_isWipeable`). Hence tracking it is tracking that list,
or changes nothing at all (`untyped_tracked_whole_or_not_at_all`).
-/

set_option autoImplicit false

namespace FieldVault.Wipe.Untyped

variable {α : Type} {value : Untyped α} {values : List (Untyped α)}

/-! ### What stands in a value -/

/-- A value stands in another: it is that value, or stands in a member of it. -/
inductive Within : Untyped α → Untyped α → Prop where
  | here (value : Untyped α) : Within value value
  | member {inner value : Untyped α} {values : List (Untyped α)} (member : value ∈ values)
      (below : Within inner value) : Within inner (.group values)

/-- Nothing stands in a value that cannot be wiped. -/
def IsWipeable (value : Untyped α) : Prop := ∀ typeName, ¬ Within (.foreign typeName) value

mutual

/-- All that is handed over with a value, in order. -/
def handles : Untyped α → List α
  | .handle id => [id]
  | .several ids => ids
  | .optional id => id.toList
  | .item whole => whole.leaves
  | .unit => []
  | .group values => handlesOf values
  | .foreign _ => []

/-- All that is handed over with a list of values, in order. -/
def handlesOf : List (Untyped α) → List α
  | [] => []
  | value :: rest => value.handles ++ handlesOf rest

end

/-- The type that a value is refused for: its own, or that of the members of groups, which is all
that is known of them. -/
def refusedType : Untyped α → String
  | .foreign typeName => typeName
  | _ => groupMemberType

theorem isWipeable_group : (group values).IsWipeable ↔ ∀ value ∈ values, value.IsWipeable := by
  constructor
  · intro h value hmember typeName hwithin
    exact h typeName (.member hmember hwithin)
  · intro h typeName hwithin
    cases hwithin with
    | member hmember hbelow => exact h _ hmember typeName hbelow

theorem not_isWipeable_foreign (typeName : String) : ¬ (foreign typeName : Untyped α).IsWipeable :=
  fun h => h typeName (.here _)

/-- A value that is neither a group nor of a foreign type can be wiped. -/
theorem isWipeable_of_ne (hforeign : ∀ typeName, value ≠ .foreign typeName)
    (hgroup : ∀ values, value ≠ .group values) : value.IsWipeable := by
  intro typeName hwithin
  cases hwithin with
  | here => exact hforeign typeName rfl
  | member => exact hgroup _ rfl

theorem refusedType_of_ne (h : ∀ typeName, value ≠ .foreign typeName) :
    value.refusedType = groupMemberType := by
  cases value with
  | foreign typeName => exact absurd rfl (h typeName)
  | _ => rfl

/-! ### What a value holds -/

mutual

/-- A value that can be wiped holds what was handed over with it. -/
theorem exists_classify_of_isWipeable : ∀ {value : Untyped α}, value.IsWipeable →
    ∃ whole, value.classify = .ok whole ∧ whole.leaves = value.handles
  | .handle id, _ => ⟨_, rfl, rfl⟩
  | .several ids, _ => ⟨_, rfl, Item.leavesOf_map_one ids⟩
  | .optional (some id), _ => ⟨_, rfl, rfl⟩
  | .optional none, _ => ⟨_, rfl, rfl⟩
  | .item whole, _ => ⟨_, rfl, rfl⟩
  | .unit, _ => ⟨_, rfl, rfl⟩
  | .group values, h => by
    obtain ⟨items, hitems, hleaves⟩ :=
      exists_classifyMembers_of_isWipeable (isWipeable_group.1 h)
    refine ⟨.many items, ?_, hleaves⟩
    rw [classify, hitems]
    rfl
  | .foreign typeName, h => absurd h (not_isWipeable_foreign typeName)

/-- Members that can be wiped hold what was handed over with them. -/
theorem exists_classifyMembers_of_isWipeable : ∀ {values : List (Untyped α)},
    (∀ value ∈ values, value.IsWipeable) →
      ∃ items, classifyMembers values = .ok items ∧ Item.leavesOf items = handlesOf values
  | [], _ => ⟨[], rfl, rfl⟩
  | value :: rest, h => by
    obtain ⟨hvalue, hrest⟩ := List.forall_mem_cons.1 h
    obtain ⟨one, hone, hleaves⟩ := exists_classify_of_isWipeable hvalue
    obtain ⟨more, hmore, hothers⟩ := exists_classifyMembers_of_isWipeable hrest
    refine ⟨one :: more, ?_, ?_⟩
    · have hforeign : ∀ typeName, value ≠ .foreign typeName := by
        rintro typeName rfl
        exact not_isWipeable_foreign typeName hvalue
      rw [classifyMembers_cons hforeign, hone, hmore]
      rfl
    · rw [Item.leavesOf, handlesOf, hleaves, hothers]

end

mutual

/-- A value that cannot be wiped is refused. -/
theorem classify_of_not_isWipeable : ∀ {value : Untyped α}, ¬ value.IsWipeable →
    value.classify = .error (.unsupportedType value.refusedType)
  | .handle _, h | .several _, h | .optional _, h | .item _, h | .unit, h =>
    (h (isWipeable_of_ne nofun nofun)).elim
  | .group values, h => by
    rw [isWipeable_group] at h
    push Not at h
    rw [classify, classifyMembers_of_not_isWipeable h]
    rfl
  | .foreign typeName, _ => rfl

/-- Members of which one cannot be wiped are refused, whatever stands before it. -/
theorem classifyMembers_of_not_isWipeable : ∀ {values : List (Untyped α)},
    (∃ value ∈ values, ¬ value.IsWipeable) →
      classifyMembers values = .error (.unsupportedType groupMemberType)
  | [], h => by
    obtain ⟨value, hmember, -⟩ := h
    cases hmember
  | value :: rest, h => by
    by_cases hforeign : ∃ typeName, value = .foreign typeName
    · obtain ⟨typeName, rfl⟩ := hforeign
      rfl
    · push Not at hforeign
      rw [classifyMembers_cons hforeign]
      by_cases hfirst : value.IsWipeable
      · -- so one that cannot be wiped comes later
        have hrest : ∃ later ∈ rest, ¬ later.IsWipeable := by
          obtain ⟨later, hmember, hlater⟩ := h
          rcases List.mem_cons.1 hmember with rfl | hmember
          · exact absurd hfirst hlater
          · exact ⟨later, hmember, hlater⟩
        obtain ⟨one, hone, -⟩ := exists_classify_of_isWipeable hfirst
        rw [hone, classifyMembers_of_not_isWipeable hrest]
        rfl
      · rw [classify_of_not_isWipeable hfirst, refusedType_of_ne hforeign]
        rfl

end

/-- Exactly the values that can be wiped are accepted. -/
theorem isOk_classify_iff : value.classify.isOk = true ↔ value.IsWipeable := by
  constructor
  · intro hok
    by_contra hforeign
    rw [classify_of_not_isWipeable hforeign] at hok
    cases hok
  · intro hwipeable
    obtain ⟨whole, hwhole, -⟩ := exists_classify_of_isWipeable hwipeable
    rw [hwhole]
    rfl

instance (value : Untyped α) : Decidable value.IsWipeable := decidable_of_iff _ isOk_classify_iff

end FieldVault.Wipe.Untyped

namespace FieldVault.Vault

open Wipe

/-- What is tracked of an item are its leaves, so items with the same leaves are tracked alike. -/
theorem mark_congr {item other : Item ValueId} (scope : ScopeId) (h : item.leaves = other.leaves)
    (v : Vault) : (mark scope item).run v = (mark scope other).run v := by
  rw [mark_run, mark_run, h]

/-- An untyped value is tracked exactly if nothing stands in it that cannot be wiped. Tracking it
then does and answers the same as tracking the list of all that was handed over with it; otherwise
it is refused, and nothing in the vault has changed. -/
theorem untyped_tracked_whole_or_not_at_all (scope : ScopeId) (value : Untyped ValueId)
    (v : Vault) :
    ((∃ count, ((markUntyped scope value).run v).1 = .ok count) ↔ value.IsWipeable) ∧
    (value.IsWipeable → (markUntyped scope value).run v =
      Prod.map Except.ok id ((mark scope (.many (value.handles.map .one))).run v)) ∧
    (¬ value.IsWipeable → (markUntyped scope value).run v =
      (.error (.unsupportedType value.refusedType), v)) := by
  have htracked : value.IsWipeable → (markUntyped scope value).run v =
      Prod.map Except.ok id ((mark scope (.many (value.handles.map .one))).run v) := by
    intro hwipeable
    obtain ⟨whole, hwhole, hleaves⟩ := Untyped.exists_classify_of_isWipeable hwipeable
    have hsame : whole.leaves = (Item.many (value.handles.map .one)).leaves := by
      rw [hleaves, Item.leaves, Item.leavesOf_map_one]
    rw [← mark_congr scope hsame, markUntyped, hwhole]
    rfl
  have hrefused : ¬ value.IsWipeable → (markUntyped scope value).run v =
      (.error (.unsupportedType value.refusedType), v) := by
    intro hforeign
    rw [markUntyped, Untyped.classify_of_not_isWipeable hforeign]
    rfl
  refine ⟨⟨?_, ?_⟩, htracked, hrefused⟩
  · rintro ⟨count, hcount⟩
    by_contra hforeign
    rw [hrefused hforeign] at hcount
    cases hcount
  · intro hwipeable
    rw [htracked hwipeable]
    exact ⟨_, rfl⟩

/-- Two texts in groups are tracked together, each once; with a number among them neither is. -/
theorem texts_tracked_unless_number_among_them :
    let texts : Untyped ValueId := .group [.handle 0, .group [.several [1, 0], .unit]]
    let mixed : Untyped ValueId := .group [.handle 0, .group [.several [1, 0], .foreign "u32"]]
    let v := ofTexts ["a", "b"]
    texts.IsWipeable ∧ ¬ mixed.IsWipeable ∧
      ((markUntyped 0 texts).run v).1 = .ok 2 ∧
      ((markUntyped 0 texts).run v).2.members 0 = [1, 0] ∧
      (markUntyped 0 mixed).run v = (.error (.unsupportedType "Box<dyn Any>"), v) := by
  intro texts mixed v
  have htexts : texts.IsWipeable := by decide
  have hmixed : ¬ mixed.IsWipeable := by decide
  have htracked := (untyped_tracked_whole_or_not_at_all 0 texts v).2.1 htexts
  have hrefused := (untyped_tracked_whole_or_not_at_all 0 mixed v).2.2 hmixed
  refine ⟨htexts, hmixed, ?_, ?_, hrefused⟩
  · rw [htracked]
    rfl
  · rw [htracked]
    rfl

end FieldVault.Vault
