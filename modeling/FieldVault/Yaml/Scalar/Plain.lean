import FieldVault.Yaml.Scalar.Gap

/-!
# Plain scalars

A plain scalar is written without quotes. It ends at a colon that ends a word, at a comment, at a
mark between documents, at a line that is not indented enough, and within brackets also at a
comma or a bracket.
-/

set_option autoImplicit false

namespace FieldVault.Yaml

/-- Whether a character is a bracket or comma of the flow style. -/
def isFlowIndicator (c : Char) : Bool := [',', '[', ']', '\x7b', '\x7d'].contains c

/-- Whether a character directly after a colon within brackets is refused. -/
def isRefusedAfterColon (c : Char) : Bool := c = '?' || isFlowIndicator c

/-- The characters that no plain scalar starts with, unless it is said otherwise. -/
def indicators : List Char :=
  ['-', '?', ':', ',', '[', ']', '\x7b', '\x7d', '#', '&', '*', '!', '|', '>', '\x27', '\x22',
    '%', '@', '\x60']

/-- Whether a plain scalar can start here. -/
def startsPlain (inFlow : Bool) : List Char → Bool
  | [] => false
  | c :: rest =>
    !(isBlank c || isBreak c || indicators.contains c)
      || (c = '-' && !(rest.head?.any isBlank))
      || (!inFlow && (c = '?' || c = ':') && !endsWord rest)

/-- A word of a plain scalar, added in reverse to the text before it, and what follows it. -/
def plainWord (inFlow : Bool) : List Char → List Char → Option (List Char × List Char)
  | word, [] => some (word, [])
  | word, c :: rest =>
    if isBlank c || isBreak c then some (word, c :: rest)
    else if inFlow && c = ':' && rest.head?.any isRefusedAfterColon then none
    else if c = ':' && endsWord rest then some (word, c :: rest)
    else if inFlow && isFlowIndicator c then some (word, c :: rest)
    else plainWord inFlow (c :: word) rest

/-- A plain scalar that has been read. -/
structure PlainScalar where
  text : String
  /-- Whether the lines after its last word have been read too. -/
  endsLine : Bool
  rest : Cursor

/-- The plain scalar of a text, given in reverse, with the gap after it. -/
def PlainScalar.ofText (text : List Char) (gap : Gap) (rest : Cursor) : PlainScalar :=
  ⟨String.ofList text.reverse, gap.hasLines, rest⟩

/-- The plain scalar that goes on after `text`, given in reverse, and a gap. Every round takes a
character, so the text is enough fuel. -/
def plainWords (inFlow : Bool) (least : Nat) :
    List Char → List Char → Gap → Cursor → Option PlainScalar
  | [], text, gap, cursor => some (.ofText text gap cursor)
  | _ :: fuel, text, gap, cursor =>
    if cursor.isDocumentMark || cursor.isAt '#' then some (.ofText text gap cursor)
    else do
      let (word, rest) ← plainWord inFlow [] cursor.rest
      -- the scalar ended with the last word, before the gap
      if word.isEmpty then return .ofText text gap cursor
      let text := word ++ gap.joint ++ text
      let (gap, cursor) ← Gap.read? least rest .none (cursor.skip word rest)
      if !inFlow && cursor.column < least then return .ofText text gap cursor
      plainWords inFlow least fuel text gap cursor

/-- The plain scalar that starts here. Its further lines stand at the column `least` or after
it. -/
def plainScalar? (inFlow : Bool) (least : Nat) (cursor : Cursor) : Option PlainScalar :=
  plainWords inFlow least cursor.rest [] .none cursor

end FieldVault.Yaml
