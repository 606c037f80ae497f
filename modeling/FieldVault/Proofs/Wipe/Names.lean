import FieldVault.Wipe.Item
import Mathlib.Logic.Basic

/-!
# Names in items

Items are given by names and resolved before anything is done with them. What is tracked of a
resolved item stands under one of the names, whether the item is given as such
(`Item.exists_of_mem_resolve?`) or as a value of unknown type that turns out to be one
(`Untyped.exists_of_mem_classify`).
-/

set_option autoImplicit false

namespace FieldVault.Wipe

variable {α β : Type} {find : α → Option β} {id : β}

mutual

/-- The leaves of an item with its names found stand under names. -/
theorem Item.exists_of_mem_resolve? : ∀ {names : Item α} {item : Item β},
    names.resolve? find = some item → id ∈ item.leaves → ∃ name, find name = some id
  | .one name, item, h, hid => by
    obtain ⟨found, hfound, rfl⟩ := Option.map_eq_some_iff.1 h
    exact ⟨name, by rwa [List.mem_singleton.1 hid]⟩
  | .many items, item, h, hid => by
    obtain ⟨found, hfound, rfl⟩ := Option.map_eq_some_iff.1 h
    exact Item.exists_of_mem_resolveAll? hfound hid
  | .none, item, h, hid => by
    obtain rfl := Option.some.inj h
    cases hid

theorem Item.exists_of_mem_resolveAll? : ∀ {names : List (Item α)} {items : List (Item β)},
    Item.resolveAll? find names = some items → id ∈ Item.leavesOf items →
      ∃ name, find name = some id
  | [], items, h, hid => by
    obtain rfl := Option.some.inj h
    cases hid
  | names :: rest, items, h, hid => by
    obtain ⟨first, hfirst, h⟩ := Option.bind_eq_some_iff.1 h
    obtain ⟨others, hothers, h⟩ := Option.bind_eq_some_iff.1 h
    obtain rfl := Option.some.inj h
    rcases List.mem_append.1 hid with hid | hid
    · exact Item.exists_of_mem_resolve? hfirst hid
    · exact Item.exists_of_mem_resolveAll? hothers hid

end

/-- The leaves of a list of single values. -/
theorem Item.leavesOf_map_one (ids : List β) : Item.leavesOf (ids.map .one) = ids := by
  induction ids with
  | nil => rfl
  | cons first rest ih => exact congrArg (first :: ·) ih

/-- Values that were found one by one stand under names. -/
theorem exists_of_mem_mapM : ∀ {names : List α} {ids : List β},
    names.mapM find = some ids → id ∈ ids → ∃ name, find name = some id
  | [], ids, h, hid => by
    obtain rfl := Option.some.inj h
    cases hid
  | name :: rest, ids, h, hid => by
    rw [List.mapM_cons] at h
    obtain ⟨first, hfirst, h⟩ := Option.bind_eq_some_iff.1 h
    obtain ⟨others, hothers, h⟩ := Option.bind_eq_some_iff.1 h
    obtain rfl := Option.some.inj h
    rcases List.mem_cons.1 hid with rfl | hid
    · exact ⟨name, hfirst⟩
    · exact exists_of_mem_mapM hothers hid

/-- Members are looked at one after the other; a foreign one is known by no name. -/
theorem Untyped.classifyMembers_cons {value : Untyped α} {rest : List (Untyped α)}
    (h : ∀ typeName, value ≠ .foreign typeName) :
    Untyped.classifyMembers (value :: rest) =
      value.classify.bind fun one => (Untyped.classifyMembers rest).bind fun more =>
        .ok (one :: more) := by
  cases value with
  | foreign typeName => exact absurd rfl (h typeName)
  | _ => rfl

/-- A group is accepted only if its first member and the rest are. -/
theorem Untyped.exists_of_classifyMembers_cons {value : Untyped β} {rest : List (Untyped β)}
    {items : List (Item β)} (h : Untyped.classifyMembers (value :: rest) = .ok items) :
    ∃ one more, value.classify = .ok one ∧ Untyped.classifyMembers rest = .ok more ∧
      items = one :: more := by
  by_cases hforeign : ∀ typeName, value ≠ .foreign typeName
  · rw [Untyped.classifyMembers_cons hforeign] at h
    cases hone : value.classify with
    | error fault =>
      rw [hone] at h
      cases h
    | ok one =>
      cases hmore : Untyped.classifyMembers rest with
      | error fault =>
        rw [hone, hmore] at h
        cases h
      | ok more =>
        rw [hone, hmore] at h
        exact ⟨one, more, rfl, rfl, (Except.ok.inj h).symm⟩
  · simp only [not_forall, not_not] at hforeign
    obtain ⟨typeName, rfl⟩ := hforeign
    cases h

mutual

/-- The leaves of an untyped value with its names found stand under names. -/
theorem Untyped.exists_of_mem_classify : ∀ {names : Untyped α} {value : Untyped β} {whole : Item β},
    names.resolve? find = some value → value.classify = .ok whole → id ∈ whole.leaves →
      ∃ name, find name = some id
  | .handle name, value, whole, h, hwhole, hid => by
    obtain ⟨found, hfound, rfl⟩ := Option.map_eq_some_iff.1 h
    cases hwhole
    exact ⟨name, by rwa [List.mem_singleton.1 hid]⟩
  | .several names, value, whole, h, hwhole, hid => by
    obtain ⟨found, hfound, rfl⟩ := Option.map_eq_some_iff.1 h
    cases hwhole
    rw [Item.leaves, Item.leavesOf_map_one] at hid
    exact exists_of_mem_mapM hfound hid
  | .optional none, value, whole, h, hwhole, hid => by
    obtain rfl := Option.some.inj h
    cases hwhole
    cases hid
  | .optional (some name), value, whole, h, hwhole, hid => by
    obtain ⟨found, hfound, rfl⟩ := Option.map_eq_some_iff.1 h
    cases hwhole
    exact ⟨name, by rwa [List.mem_singleton.1 hid]⟩
  | .item names, value, whole, h, hwhole, hid => by
    obtain ⟨found, hfound, rfl⟩ := Option.map_eq_some_iff.1 h
    cases hwhole
    exact Item.exists_of_mem_resolve? hfound hid
  | .unit, value, whole, h, hwhole, hid => by
    obtain rfl := Option.some.inj h
    cases hwhole
    cases hid
  | .group values, value, whole, h, hwhole, hid => by
    obtain ⟨found, hfound, rfl⟩ := Option.map_eq_some_iff.1 h
    cases hmembers : Untyped.classifyMembers found with
    | error fault =>
      rw [Untyped.classify, hmembers] at hwhole
      cases hwhole
    | ok items =>
      rw [Untyped.classify, hmembers] at hwhole
      cases hwhole
      exact Untyped.exists_of_mem_classifyMembers hfound hmembers hid
  | .foreign typeName, value, whole, h, hwhole, hid => by
    obtain rfl := Option.some.inj h
    cases hwhole

theorem Untyped.exists_of_mem_classifyMembers : ∀ {names : List (Untyped α)}
    {values : List (Untyped β)} {items : List (Item β)},
    Untyped.resolveAll? find names = some values → Untyped.classifyMembers values = .ok items →
      id ∈ Item.leavesOf items → ∃ name, find name = some id
  | [], values, items, h, hitems, hid => by
    obtain rfl := Option.some.inj h
    cases hitems
    cases hid
  | names :: rest, values, items, h, hitems, hid => by
    obtain ⟨first, hfirst, h⟩ := Option.bind_eq_some_iff.1 h
    obtain ⟨others, hothers, h⟩ := Option.bind_eq_some_iff.1 h
    obtain rfl := Option.some.inj h
    obtain ⟨one, more, hone, hmore, rfl⟩ := Untyped.exists_of_classifyMembers_cons hitems
    rcases List.mem_append.1 hid with hid | hid
    · exact Untyped.exists_of_mem_classify hfirst hone hid
    · exact Untyped.exists_of_mem_classifyMembers hothers hmore hid

end

end FieldVault.Wipe
