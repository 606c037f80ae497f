import FieldVault.Proofs.Json.Entries
import FieldVault.Proofs.Json.Texts

/-!
# The canonical form does not depend on the order of members

Two values are reorderings of each other if they differ in the order of the members of their objects
and in nothing else, at any depth (`Reordered`). What comes of members with distinct names is those
members in order, whatever the order they came in (`canonicalMembers_eq_of_perm`). Hence
reorderings have one canonical form (`Reordered.canonical_eq`).
-/

set_option autoImplicit false

namespace FieldVault.Json

/-! ### Members in order -/

section

variable {members seen : List (String × Json)}

/-- The member with the canonical form of its value. -/
def canonicalMember (member : String × Json) : String × Json := (member.1, member.2.canonical)

/-- The canonical members are the members with the canonical forms of their values, set one after
the other. -/
theorem canonicalMembers_eq_setAll :
    canonicalMembers seen members = setAll seen (members.map canonicalMember) := by
  induction members generalizing seen with
  | nil => rfl
  | cons first rest ih => exact ih

/-- The members of a canonical object are told by what they are. -/
theorem canonicalMembers_eq_of_perm {others : List (String × Json)}
    (h : (members.map Prod.fst).Nodup)
    (hperm : (members.map canonicalMember).Perm (others.map canonicalMember)) :
    canonicalMembers [] members = canonicalMembers [] others := by
  rw [canonicalMembers_eq_setAll, canonicalMembers_eq_setAll]
  apply setAll_eq_of_perm hperm ?_ .nil
  rw [List.map_map, List.map_nil, List.append_nil]
  exact h

end

/-! ### Reorderings -/

/-- Values that differ in the order of the members of their objects, at any depth, and in nothing
else. No object has a name twice. -/
inductive Reordered : Json → Json → Prop where
  | null : Reordered .null .null
  | bool (b : Bool) : Reordered (.bool b) (.bool b)
  | int (i : Int) : Reordered (.int i) (.int i)
  | double (x : Binary64) : Reordered (.double x) (.double x)
  | str (text : String) : Reordered (.str text) (.str text)
  | arr {items others : List Json} (hlength : items.length = others.length)
    (h : ∀ pair ∈ items.zip others, Reordered pair.1 pair.2) :
    Reordered (.arr items) (.arr others)
  | obj {members others : List (String × Json)} (hnodup : (members.map Prod.fst).Nodup)
    (hnames : (members.map Prod.fst).Perm (others.map Prod.fst))
    (h : ∀ name v w, (name, v) ∈ members → (name, w) ∈ others → Reordered v w) :
    Reordered (.obj members) (.obj others)

/-- Items that are alike in pairs have the same canonical forms. -/
theorem map_canonical_eq {items others : List Json} (hlength : items.length = others.length)
    (h : ∀ pair ∈ items.zip others, pair.1.canonical = pair.2.canonical) :
    items.map canonical = others.map canonical := by
  induction items generalizing others with
  | nil =>
    cases others with
    | nil => rfl
    | cons other others => cases hlength
  | cons item items ih =>
    cases others with
    | nil => cases hlength
    | cons other others =>
      obtain ⟨hfirst, hrest⟩ := List.forall_mem_cons.1 h
      rw [List.map_cons, List.map_cons, hfirst, ih (Nat.succ.inj hlength) hrest]

/-- Members with the same names, and the same canonical forms under each of them, are the same
apart from their order. -/
theorem map_canonicalMember_perm {members others : List (String × Json)}
    (hnodup : (members.map Prod.fst).Nodup)
    (hnames : (members.map Prod.fst).Perm (others.map Prod.fst))
    (h : ∀ name v w, (name, v) ∈ members → (name, w) ∈ others → v.canonical = w.canonical) :
    (members.map canonicalMember).Perm (others.map canonicalMember) := by
  have hdistinct : ∀ {list : List (String × Json)}, (list.map Prod.fst).Nodup →
      (list.map canonicalMember).Nodup := by
    intro list hlist
    refine List.Nodup.of_map Prod.fst ?_
    rw [List.map_map]
    exact hlist
  refine (List.perm_ext_iff_of_nodup (hdistinct hnodup) (hdistinct (hnames.nodup_iff.1 hnodup))).2
    fun member => ?_
  rw [List.mem_map, List.mem_map]
  constructor
  · rintro ⟨⟨name, v⟩, hv, rfl⟩
    obtain ⟨⟨other, w⟩, hw, hname⟩ := List.mem_map.1 (hnames.subset (List.mem_map_of_mem hv))
    obtain rfl : name = other := hname.symm
    exact ⟨(name, w), hw, congrArg (name, ·) (h name v w hv hw).symm⟩
  · rintro ⟨⟨name, w⟩, hw, rfl⟩
    obtain ⟨⟨other, v⟩, hv, hname⟩ := List.mem_map.1 (hnames.symm.subset (List.mem_map_of_mem hw))
    obtain rfl : name = other := hname.symm
    exact ⟨(name, v), hv, congrArg (name, ·) (h name v w hv hw)⟩

/-- Reorderings have one canonical form. -/
theorem Reordered.canonical_eq {v w : Json} (h : Reordered v w) : v.canonical = w.canonical := by
  induction h with
  | null | bool | int | double | str => rfl
  | arr hlength _ ih =>
    rw [canonical, canonical, canonicalItems_eq, canonicalItems_eq, map_canonical_eq hlength ih]
  | obj hnodup hnames _ ih =>
    rw [canonical, canonical]
    exact congrArg Json.obj
      (canonicalMembers_eq_of_perm hnodup (map_canonicalMember_perm hnodup hnames ih))

end FieldVault.Json
