import FieldVault.Yaml.Scalar.Block
import FieldVault.Yaml.Scalar.Plain
import FieldVault.Yaml.Token

/-!
# From text to tokens

The lexer keeps the columns of the indented lists and mappings that are open, and for each
bracket that is open the place where a key may have started. Only the colon after it tells that
there was a key, so its token is put in then. Such a key lies on one line and takes at most
`longestKey` bytes. Where a line that stands at the column of a mapping starts with no sign, it
must start with a key.
-/

set_option autoImplicit false

namespace FieldVault.Yaml

/-- A place where a key may have started. -/
structure KeyPlace where
  /-- The number of tokens before it. -/
  index : Nat
  /-- Whether there must be a key. -/
  required : Bool
  line : Nat
  column : Nat
  offset : Nat

/-- The greatest length of a key that needs no sign, in bytes. -/
def longestKey : Nat := 1024

/-- Whether a key that started at a place has not ended in time. -/
def KeyPlace.isStale (place : KeyPlace) (cursor : Cursor) : Bool :=
  place.line < cursor.line || place.offset + longestKey < cursor.offset

/-- The state of the lexer. -/
structure Lexer where
  cursor : Cursor
  /-- The tokens so far, the newest first. -/
  tokens : List Token
  /-- Their number. -/
  count : Nat
  /-- The column of the innermost indented list or mapping, and those of the ones around it. -/
  indent : Int
  outer : List Int
  /-- Where a key may have started outside all brackets. -/
  blockKey : Option KeyPlace
  /-- Where a key may have started within each open bracket, the innermost first. -/
  flowKeys : List (Option KeyPlace)
  /-- Whether a key may start here. -/
  keyAllowed : Bool

namespace Lexer

/-- The lexer at the start of a text. -/
def start (text : List Char) : Lexer := ⟨.start text, [], 0, -1, [], none, [], true⟩

/-- Whether a bracket is open. -/
def inFlow (l : Lexer) : Bool := !l.flowKeys.isEmpty

/-- The lexer with one more token. -/
def emit (l : Lexer) (token : Token) : Lexer :=
  { l with tokens := token :: l.tokens, count := l.count + 1 }

/-- The lexer with a token put in behind the first `index` ones. -/
def emitAt (l : Lexer) (index : Nat) (token : Token) : Lexer :=
  -- the tokens stand newest first, so those behind the place are at the front of the list
  let newer := l.count - index
  { l with
    tokens := l.tokens.take newer ++ token :: l.tokens.drop newer
    count := l.count + 1 }

/-! ### Indentation -/

/-- Open a list or mapping at a column, if it stands further in than the one around it. Its token
comes behind the first `index` ones. -/
def indentTo (l : Lexer) (column index : Nat) (token : Token) : Lexer :=
  if l.inFlow ∨ (column : Int) ≤ l.indent then l
  else { l.emitAt index token with indent := column, outer := l.indent :: l.outer }

/-- Close the lists and mappings that stand further in than a column, given the columns around the
innermost. -/
def closeTo (column : Int) : List Int → Lexer → Lexer
  | [], l => l
  | parent :: parents, l =>
    if column < l.indent then
      closeTo column parents { l.emit .blockEnd with indent := parent, outer := parents }
    else l

/-- Close the lists and mappings that stand further in than a column. -/
def unindentTo (l : Lexer) (column : Int) : Lexer :=
  if l.inFlow then l else closeTo column l.outer l

/-! ### Keys -/

/-- The place where a key may have started, within the innermost bracket. -/
def keyPlace (l : Lexer) : Option KeyPlace :=
  match l.flowKeys with
  | [] => l.blockKey
  | place :: _ => place

/-- The lexer with another place for a key. -/
def setKeyPlace (l : Lexer) (place : Option KeyPlace) : Lexer :=
  match l.flowKeys with
  | [] => { l with blockKey := place }
  | _ :: outer => { l with flowKeys := place :: outer }

/-- Give up the place for a key; that fails where there must be one. -/
def dropKey? (l : Lexer) : Option Lexer :=
  if l.keyPlace.any KeyPlace.required then none else some (l.setKeyPlace none)

/-- Note that a key may start here. -/
def noteKey? (l : Lexer) : Option Lexer :=
  if l.keyAllowed then do
    -- a line at the column of the open mapping can only start with a key
    let required := !l.inFlow && l.indent == l.cursor.column
    let place := ⟨l.count, required, l.cursor.line, l.cursor.column, l.cursor.offset⟩
    return (← l.dropKey?).setKeyPlace (some place)
  else some l

/-- Give up the place for a key outside the brackets if it is stale. -/
def expireKey? (l : Lexer) : Option Lexer :=
  match l.blockKey with
  | none => some l
  | some place =>
    if !place.isStale l.cursor then some l
    else if place.required then none
    else some { l with blockKey := none }

/-! ### Single tokens -/

/-- A token of a number of characters; a key may follow it or not. -/
def sign (l : Lexer) (token : Token) (length : Nat) (keyAllowed : Bool) : Lexer :=
  let taken := l.cursor.rest.take length
  { l.emit token with
    cursor := l.cursor.skip taken (l.cursor.rest.drop length), keyAllowed := keyAllowed }

/-- A mark between documents. -/
def documentMark? (l : Lexer) (token : Token) : Option Lexer := do
  return (← (l.unindentTo (-1)).dropKey?).sign token 3 false

/-- An opening bracket. -/
def openFlow? (l : Lexer) (token : Token) : Option Lexer := do
  let l ← l.noteKey?
  return { l with flowKeys := none :: l.flowKeys }.sign token 1 true

/-- A closing bracket. -/
def closeFlow? (l : Lexer) (token : Token) : Option Lexer := do
  let l ← l.dropKey?
  return { l with flowKeys := l.flowKeys.drop 1 }.sign token 1 false

/-- A comma. -/
def flowEntry? (l : Lexer) : Option Lexer := do
  return (← l.dropKey?).sign .flowEntry 1 true

/-- A dash. -/
def blockEntry? (l : Lexer) : Option Lexer := do
  if !l.inFlow ∧ !l.keyAllowed then none
  else
    let l := l.indentTo l.cursor.column l.count .blockListStart
    return (← l.dropKey?).sign .blockEntry 1 true

/-- The sign before a key. -/
def key? (l : Lexer) : Option Lexer := do
  if !l.inFlow ∧ !l.keyAllowed then none
  else
    let l := l.indentTo l.cursor.column l.count .blockMappingStart
    return (← l.dropKey?).sign .key 1 (!l.inFlow)

/-- The colon before a value. It shows that the place for a key was one. -/
def value? (l : Lexer) : Option Lexer :=
  match l.keyPlace.filter fun place => !place.isStale l.cursor with
  | some place =>
    -- both go to one index; the start of the mapping is put in last and so stands first
    let l := (l.emitAt place.index .key).indentTo place.column place.index .blockMappingStart
    some ((l.setKeyPlace none).sign .value 1 false)
  | none =>
    -- the key stands behind a sign of its own, or there is none
    let l := l.setKeyPlace none
    if !l.inFlow ∧ !l.keyAllowed then none
    else
      let l := l.indentTo l.cursor.column l.count .blockMappingStart
      some (l.sign .value 1 (!l.inFlow))

/-- A token that has been read, up to a place. -/
def finish (l : Lexer) (token : Token) (cursor : Cursor) (keyAllowed : Bool) : Lexer :=
  { l.emit token with cursor := cursor, keyAllowed := keyAllowed }

/-- Whether the name of an anchor may end here. -/
def endsAnchor : List Char → Bool
  | [] => true
  | c :: rest => endsWord (c :: rest) || "?:,]\x7d%@\x60".toList.contains c

/-- An anchor or an alias. -/
def anchor? (l : Lexer) (token : String → Token) : Option Lexer := do
  let l ← l.noteKey?
  let (name, after) := l.cursor.next.span isWordChar
  if name.isEmpty ∨ !endsAnchor after.rest then none
  else return l.finish (token (String.ofList name)) after false

/-- A tag. -/
def tagged? (l : Lexer) : Option Lexer := do
  let l ← l.noteKey?
  let (name, after) ← tag? l.inFlow l.cursor
  return l.finish (.tag name) after false

/-- A block scalar. -/
def block? (l : Lexer) (fold : Bool) : Option Lexer := do
  let l ← l.dropKey?
  let (text, after) ← blockScalar? fold l.indent l.cursor.next
  return l.finish (.scalar false text) after true

/-- A quoted scalar. -/
def quoted? (l : Lexer) (single : Bool) : Option Lexer := do
  let l ← l.noteKey?
  let (text, after) ← quotedScalar? single l.cursor.next
  return l.finish (.scalar false text) after false

/-- A plain scalar. After it a key may start if the line has ended. -/
def plain? (l : Lexer) : Option Lexer := do
  let l ← l.noteKey?
  let scalar ← plainScalar? l.inFlow (l.indent + 1).toNat l.cursor
  return l.finish (.scalar true scalar.text) scalar.rest scalar.endsLine

/-! ### Directives -/

/-- The greatest number of digits in a part of a version. -/
def versionDigits : Nat := 9

/-- A part of a version. -/
def versionNumber? (cursor : Cursor) : Option (Nat × Cursor) :=
  let (digits, after) := cursor.span Char.isDigit
  if digits.isEmpty ∨ versionDigits < digits.length then none
  else some (digits.foldl (fun n c => 10 * n + (c.toNat - 48)) 0, after)

/-- What a directive says, after its name. -/
def directiveToken? (name : String) (cursor : Cursor) : Option (Token × Cursor) :=
  if name = "YAML" then do
    let (major, after) ← versionNumber? (cursor.skipWhile isBlank)
    if !after.isAt '.' then none
    else
      let (minor, after) ← versionNumber? after.next
      return (.version major minor, after)
  else if name = "TAG" then do
    let ((handle, expansion), after) ← tagDirective? cursor
    return (.handle handle expansion, after)
  else none

/-- A directive. -/
def directive? (l : Lexer) : Option Lexer := do
  let l ← (l.unindentTo (-1)).dropKey?
  let (name, after) := l.cursor.next.span isWordChar
  if name.isEmpty ∨ !endsWord after.rest then none
  else
    let (token, after) ← directiveToken? (String.ofList name) after
    return l.finish token (← after.finishLine?) false

/-! ### The whole text -/

/-- Skip blanks, comments and line ends, given whether a key may start; a tab counts as a blank
only where none may. A new line may start with a key, except within brackets. Every round takes a
character, so the text is enough fuel. -/
def skipSpace (inFlow : Bool) : List Char → Bool → Cursor → Bool × Cursor
  | [], keyAllowed, cursor => (keyAllowed, cursor)
  | _ :: fuel, keyAllowed, cursor =>
    -- a byte order mark at the start of a line is no content
    let cursor := if cursor.column = 0 ∧ cursor.isAt '\ufeff' then cursor.next else cursor
    let cursor := cursor.skipWhile fun c => c = ' ' || (c = '\t' && (inFlow || !keyAllowed))
    let cursor := if cursor.isAt '#' then cursor.skipWhile fun c => !isBreak c else cursor
    match cursor.lineEnd? with
    | some (_, next) => skipSpace inFlow fuel (keyAllowed || !inFlow) next
    | none => (keyAllowed, cursor)

/-- The lexer before the next token, after the lists and mappings have been closed that end
there. -/
def advance? (l : Lexer) : Option Lexer := do
  let (keyAllowed, cursor) := skipSpace l.inFlow l.cursor.rest l.keyAllowed l.cursor
  let l ← { l with cursor := cursor, keyAllowed := keyAllowed }.expireKey?
  return l.unindentTo cursor.column

/-- The token that starts here. -/
def token? (l : Lexer) : Option Lexer :=
  match l.cursor.rest with
  | [] => none
  | c :: rest =>
    -- directives and the marks between documents count only at the start of a line
    if l.cursor.column = 0 ∧ c = '%' then l.directive?
    else if l.cursor.isMark '-' then l.documentMark? .documentStart
    else if l.cursor.isMark '.' then l.documentMark? .documentEnd
    else if c = '[' then l.openFlow? .flowListStart
    else if c = '\x7b' then l.openFlow? .flowMappingStart
    else if c = ']' then l.closeFlow? .flowListEnd
    else if c = '\x7d' then l.closeFlow? .flowMappingEnd
    else if c = ',' then l.flowEntry?
    -- these three are signs where no word goes on; within brackets the last two always are
    else if c = '-' ∧ endsWord rest then l.blockEntry?
    else if c = '?' ∧ (l.inFlow ∨ endsWord rest) then l.key?
    else if c = ':' ∧ (l.inFlow ∨ endsWord rest) then l.value?
    else if c = '*' then l.anchor? .alias
    else if c = '&' then l.anchor? .anchor
    else if c = '!' then l.tagged?
    else if c = '|' ∧ !l.inFlow then l.block? false
    else if c = '>' ∧ !l.inFlow then l.block? true
    else if c = '\x27' then l.quoted? true
    else if c = '\x22' then l.quoted? false
    else if startsPlain l.inFlow (c :: rest) then l.plain?
    else none

/-- The end of the text, which closes all that is open. -/
def finishText? (l : Lexer) : Option Lexer := (l.unindentTo (-1)).dropKey?

/-- The lexer at the end of the text. Every token takes a character, so the text is enough
fuel. -/
def run? : List Char → Lexer → Option Lexer
  | fuel, l =>
    match l.advance? with
    | none => none
    | some l =>
      if l.cursor.rest.isEmpty then l.finishText?
      else match fuel with
        | [] => none
        | _ :: fuel =>
          match l.token? with
          | none => none
          | some l => run? fuel l

end Lexer

/-- The tokens of a text. -/
def Token.ofText? (text : String) : Option (List Token) :=
  let characters := text.toList
  if characters.all isPermitted then
    (Lexer.run? characters (.start characters)).map fun l => l.tokens.reverse
  else none

end FieldVault.Yaml
