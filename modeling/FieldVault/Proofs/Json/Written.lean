import FieldVault.Json.Writer

/-!
# What is written piece by piece

A value that is written to memory is written as a whole: no piece is refused, and the pieces make up
the compact form (`toBytes?_eq`).
-/

set_option autoImplicit false

namespace FieldVault.Json

/-- The pieces that are written make up a text, behind what was written before. -/
def Writes (work : StateT (List Bytes) (Except WriteFault) Unit) (text : Bytes) : Prop :=
  ∀ pieces, ∃ after, work.run pieces = .ok ((), after) ∧
    after.reverse.flatten = pieces.reverse.flatten ++ text

theorem writes_put (piece : Bytes) : Writes (putInMemory piece) piece := by
  intro pieces
  refine ⟨piece :: pieces, rfl, ?_⟩
  rw [List.reverse_cons, List.flatten_append, List.flatten_singleton]

variable {first second : StateT (List Bytes) (Except WriteFault) Unit} {text rest : Bytes}

/-- One text is written behind another. -/
theorem writes_then (hfirst : Writes first text) (hsecond : Writes second rest) :
    Writes (do first; second) (text ++ rest) := by
  intro pieces
  obtain ⟨between, hrun, hbetween⟩ := hfirst pieces
  obtain ⟨after, hrest, hafter⟩ := hsecond between
  refine ⟨after, ?_, ?_⟩
  · rw [StateT.run_bind, hrun]
    exact hrest
  · rw [hafter, hbetween, List.append_assoc]

mutual

/-- The pieces of a value make up its compact form. -/
theorem writes_writeTo : ∀ value : Json, Writes (value.writeTo putInMemory) value.encode
  | .null => writes_put _
  | .bool _ => writes_put _
  | .int _ => writes_put _
  | .double _ => writes_put _
  | .str _ => writes_put _
  | .arr items => by
    rw [writeTo, encode]
    exact writes_then (writes_put [0x5b]) (writes_writeItems items)
  | .obj members => by
    rw [writeTo, encode]
    exact writes_then (writes_put [0x7b]) (writes_writeMembers members)

theorem writes_writeItems :
    ∀ items : List Json, Writes (writeItems putInMemory items) (encodeItems items)
  | [] => writes_put _
  | [item] => by
    rw [writeItems, encodeItems]
    exact writes_then (writes_writeTo item) (writes_put [0x5d])
  | item :: next :: rest => by
    rw [writeItems, encodeItems]
    exact writes_then (writes_writeTo item)
      (writes_then (writes_put [0x2c]) (writes_writeItems (next :: rest)))

theorem writes_writeMembers : ∀ members : List (String × Json),
    Writes (writeMembers putInMemory members) (encodeMembers members)
  | [] => writes_put _
  | [(name, value)] => by
    rw [writeMembers, encodeMembers, List.append_assoc, List.cons_append]
    exact writes_then (writes_put _)
      (writes_then (writes_put [0x3a]) (writes_then (writes_writeTo value) (writes_put [0x7d])))
  | (name, value) :: next :: rest => by
    rw [writeMembers, encodeMembers, List.append_assoc, List.cons_append]
    exact writes_then (writes_put _) (writes_then (writes_put [0x3a])
      (writes_then (writes_writeTo value)
        (writes_then (writes_put [0x2c]) (writes_writeMembers (next :: rest)))))

end

/-- A value is written as a whole, in its compact form. -/
theorem toBytes?_eq (value : Json) : value.toBytes? = .ok value.encode := by
  obtain ⟨after, hrun, hafter⟩ := writes_writeTo value []
  have hbytes : value.toBytes? = ((value.writeTo putInMemory).run []).map
      fun written => written.2.reverse.flatten := rfl
  rw [hbytes, hrun]
  exact congrArg Except.ok hafter

end FieldVault.Json
