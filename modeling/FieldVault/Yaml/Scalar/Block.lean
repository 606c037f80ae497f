import FieldVault.Yaml.Cursor

/-!
# Block scalars

A block scalar consists of the indented lines after its header. The indentation is that of the
first line that is not empty, unless the header gives one. In a folded block a line end between
two lines that start with no blank becomes a space. What becomes of the line ends at the end is
said by the header too.
-/

set_option autoImplicit false

namespace FieldVault.Yaml

/-- What becomes of the line ends at the end of a block: none is kept, one is, or all are. -/
inductive Chomping where
  | strip
  | clip
  | keep
deriving DecidableEq

/-- The chomping that a character asks for. -/
def Chomping.ofChar? (c : Char) : Option Chomping :=
  if c = '+' then some .keep else if c = '-' then some .strip else none

/-- The header of a block: the indentation it gives, and the chomping. -/
structure BlockHeader where
  indentation : Option Nat
  chomping : Chomping

/-- The chomping at the front of a header, and the rest. -/
def headerChomping (cursor : Cursor) : Option Chomping × Cursor :=
  match cursor.head?.bind Chomping.ofChar? with
  | some chomping => (some chomping, cursor.next)
  | none => (none, cursor)

/-- The indentation at the front of a header, and the rest; zero is none. -/
def headerIndentation? (cursor : Cursor) : Option (Option Nat × Cursor) :=
  match cursor.head? with
  | some c =>
    if c = '0' then none
    else if '1' ≤ c ∧ c ≤ '9' then some (some (c.toNat - 48), cursor.next)
    else some (none, cursor)
  | none => some (none, cursor)

/-- The header of a block, its two parts in either order, and the start of the next line. -/
def blockHeader? (cursor : Cursor) : Option (BlockHeader × Cursor) := do
  let (early, cursor) := headerChomping cursor
  let (indentation, cursor) ← headerIndentation? cursor
  let (late, cursor) := if early.isNone && indentation.isSome then headerChomping cursor
    else (none, cursor)
  return (⟨indentation, (early.or late).getD .clip⟩, ← cursor.finishLine?)

/-- The empty lines before the next line of a block. Spaces are skipped up to the indentation, or
all of them while that is unknown; no tab may take their place. Gives the line ends in reverse and
the greatest column reached. -/
def blockGap? (indentation : Option Nat) :
    List Char → Nat → List Char → Cursor → Option (Nat × List Char × Cursor)
  | [], widest, ends, cursor => some (widest, ends, cursor)
  | _ :: fuel, widest, ends, cursor =>
    let spaces := cursor.rest.takeWhile (· = ' ')
    let taken :=
      match indentation with
      | some n => spaces.take (n - cursor.column)
      | none => spaces
    let cursor := cursor.skip taken (cursor.rest.drop taken.length)
    let widest := max widest cursor.column
    -- a tab is content once the indentation is reached
    if cursor.isAt '\t' && !(indentation.any (· ≤ cursor.column)) then none
    else match cursor.lineEnd? with
      | some (c, next) => blockGap? indentation fuel widest (c :: ends) next
      | none => some (widest, ends, cursor)

/-- The lines of a block so far, in reverse, with the line end after the last of them, the line
ends of the empty lines after that, and whether the last line starts with a blank. -/
structure BlockText where
  text : List Char
  lastEnd : List Char
  emptyEnds : List Char
  indented : Bool

/-- The text with all that stands before the next line, which starts with a blank or not. -/
def BlockText.joined (b : BlockText) (fold indented : Bool) : List Char :=
  -- lines are folded only where neither of them starts with a blank
  if fold && b.lastEnd = ['\n'] && !b.indented && !indented then
    if b.emptyEnds.isEmpty then ' ' :: b.text else b.emptyEnds ++ b.text
  else b.emptyEnds ++ b.lastEnd ++ b.text

/-- The lines of a block with the given indentation. Every round takes a character, so the text is
enough fuel. -/
def blockLines? (fold : Bool) (indentation : Nat) :
    List Char → BlockText → Cursor → Option (BlockText × Cursor)
  | [], b, cursor => some (b, cursor)
  | _ :: fuel, b, cursor =>
    if cursor.column ≠ indentation ∨ cursor.rest.isEmpty then some (b, cursor)
    else do
      let indented := cursor.head?.any isBlank
      let (line, cursor) := cursor.span fun c => !isBreak c
      let text := line.reverse ++ b.joined fold indented
      let (lastEnd, cursor) :=
        match cursor.lineEnd? with
        | some (c, next) => ([c], next)
        | none => ([], cursor)
      let (_, emptyEnds, cursor) ← blockGap? (some indentation) cursor.rest 0 [] cursor
      blockLines? fold indentation fuel ⟨text, lastEnd, emptyEnds, indented⟩ cursor

/-- The block after the character that opens it, where the lines of its parent stand at the column
`indent` or, for a whole document, at none. -/
def blockScalar? (fold : Bool) (indent : Int) (cursor : Cursor) : Option (String × Cursor) := do
  let (header, cursor) ← blockHeader? cursor
  let given := header.indentation.map fun n => (max indent 0).toNat + n
  let (widest, ends, cursor) ← blockGap? given cursor.rest 0 [] cursor
  -- without a number in the header the lines up to the first that is not empty tell it
  let indentation := given.getD (max (max widest (indent + 1).toNat) 1)
  let (b, cursor) ←
    blockLines? fold indentation cursor.rest ⟨[], [], ends, false⟩ cursor
  let text := if header.chomping = .strip then b.text else b.lastEnd ++ b.text
  let text := if header.chomping = .keep then b.emptyEnds ++ text else text
  return (String.ofList text.reverse, cursor)

end FieldVault.Yaml
