/-!
# Sets of field paths

The paths of the encrypted fields of an entity type form a set. It is kept as a list in the order
of the texts, each path once, so that equal sets are equal lists. A set of the paths of a list has
just these paths (`PathSet.mem_ofList`).
-/

set_option autoImplicit false

namespace FieldVault.Document

/-- A set of paths, in order and hence without repetition. -/
structure PathSet where
  paths : List String
  ordered : paths.Pairwise (· < ·)

instance : Coe PathSet (List String) := ⟨PathSet.paths⟩

instance : Membership String PathSet := ⟨fun set path => path ∈ set.paths⟩

namespace PathSet

variable {path other : String} {list : List String}

/-- The list with one path added, at its place in the order. -/
def place (path : String) : List String → List String
  | [] => [path]
  | other :: rest =>
    if path < other then path :: other :: rest
    else if path = other then other :: rest
    else other :: place path rest

theorem mem_place : other ∈ place path list ↔ other = path ∨ other ∈ list := by
  induction list with
  | nil => simp [place]
  | cons first rest ih =>
    rw [place]
    split
    · rw [List.mem_cons]
    · split
      · rename_i heq
        rw [List.mem_cons, heq]
        exact ⟨.inr, fun h => h.elim .inl id⟩
      · rw [List.mem_cons, List.mem_cons, ih]
        exact or_left_comm

/-- A path is put where it belongs in the order. -/
theorem pairwise_place (h : list.Pairwise (· < ·)) : (place path list).Pairwise (· < ·) := by
  induction list with
  | nil => exact List.pairwise_singleton _ _
  | cons first rest ih =>
    have hrest : ∀ next ∈ rest, first < next := (List.pairwise_cons.1 h).1
    rw [place]
    split
    · rename_i hlt
      refine List.pairwise_cons.2 ⟨fun next hnext => ?_, h⟩
      rcases List.mem_cons.1 hnext with rfl | hnext
      · exact hlt
      · exact String.lt_trans hlt (hrest next hnext)
    · split
      · exact h
      · rename_i hlt hne
        refine List.pairwise_cons.2 ⟨fun next hnext => ?_, ih (List.pairwise_cons.1 h).2⟩
        rcases mem_place.1 hnext with rfl | hnext
        · -- the order is total
          apply Decidable.byContradiction
          intro hnot
          exact hne (String.le_antisymm hnot hlt)
        · exact hrest next hnext

/-- The set without paths. -/
def empty : PathSet := ⟨[], .nil⟩

/-- The set with one path added. -/
def add (path : String) (set : PathSet) : PathSet :=
  ⟨place path set.paths, pairwise_place set.ordered⟩

theorem mem_add {set : PathSet} : other ∈ add path set ↔ other = path ∨ other ∈ set := mem_place

/-- The set of the paths of a list. -/
def ofList (paths : List String) : PathSet := paths.foldl (fun set path => add path set) empty

/-- A set has the paths of the list that it was made of. -/
theorem mem_ofList {paths : List String} : path ∈ ofList paths ↔ path ∈ paths := by
  -- the induction is on the paths, for whatever was added before them
  suffices h : ∀ set : PathSet, path ∈ paths.foldl (fun set next => add next set) set ↔
      path ∈ set ∨ path ∈ paths by
    exact (h empty).trans (or_iff_right List.not_mem_nil)
  induction paths with
  | nil => simp
  | cons next paths ih =>
    intro set
    rw [List.foldl_cons, ih, mem_add, List.mem_cons, or_assoc, or_left_comm]

/-- A set has no path twice. -/
theorem nodup (set : PathSet) : set.paths.Nodup := by
  refine List.Pairwise.imp ?_ set.ordered
  intro path other hlt heq
  rw [heq] at hlt
  exact String.lt_irrefl other hlt

end PathSet

end FieldVault.Document
