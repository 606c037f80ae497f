import FieldVault.Yaml.Cursor

/-!
# Gaps between the words of a scalar

The words of a scalar that is not a block are joined by what stands between them. Blanks within a
line stay. At a line end the blanks around it go; one line end becomes a space, and of several
the first goes. A separator that ends the first line stays.
-/

set_option autoImplicit false

namespace FieldVault.Yaml

/-- What stands between two words. The characters are given in reverse. -/
inductive Gap where
  /-- Blanks of one line. -/
  | blanks (read : List Char)
  /-- Line ends: the first, unless it was escaped, and those after it. -/
  | lines (first : Option Char) (more : List Char)

namespace Gap

/-- No gap. -/
def none : Gap := .blanks []

/-- Whether there is a line end. -/
def hasLines : Gap → Bool
  | .blanks _ => false
  | .lines _ _ => true

/-- What a gap puts between the words, in reverse. -/
def joint : Gap → List Char
  | .blanks read => read
  | .lines (some '\n') [] => [' ']
  | .lines (some '\n') more => more
  | .lines (some c) more => more ++ [c]
  | .lines Option.none more => more

/-- The gap with one more blank; after a line end blanks do not count. -/
def addBlank (c : Char) : Gap → Gap
  | .blanks read => .blanks (c :: read)
  | .lines first more => .lines first more

/-- The gap with one more line end. -/
def addLineEnd (c : Char) : Gap → Gap
  | .blanks _ => .lines (some c) []
  | .lines first more => .lines first (c :: more)

/-- The rest of a gap; after a line end no tab may stand before the column `least`. Every round
takes a character, so the text is enough fuel. -/
def read? (least : Nat) : List Char → Gap → Cursor → Option (Gap × Cursor)
  | [], gap, cursor => some (gap, cursor)
  | _ :: fuel, gap, cursor =>
    match cursor.lineEnd? with
    | some (c, next) => read? least fuel (gap.addLineEnd c) next
    | Option.none =>
      match cursor.rest with
      | [] => some (gap, cursor)
      | c :: _ =>
        if !isBlank c then some (gap, cursor)
        else if gap.hasLines ∧ c = '\t' ∧ cursor.column < least then Option.none
        else read? least fuel (gap.addBlank c) cursor.next

end Gap

end FieldVault.Yaml
