/-!
# Places in YAML text

A text is read through a cursor, which knows the line and the column it stands in and how many
bytes lie before it. Five characters end a line; a carriage return and a line feed together end
one line. Inside a scalar the end of a line counts as a line feed, unless it is one of the two
separators that stand for themselves.
-/

set_option autoImplicit false

namespace FieldVault.Yaml

/-- Whether a character is a space or a tab. -/
def isBlank (c : Char) : Bool := c = ' ' || c = '\t'

/-- Whether a character is the line separator or the paragraph separator. -/
def isSeparator (c : Char) : Bool := c = '\u2028' || c = '\u2029'

/-- Whether a character ends a line. -/
def isBreak (c : Char) : Bool := c = '\n' || c = '\r' || c = '\u0085' || isSeparator c

/-- Whether a character may stand in a text at all: no control character does but the tab and
those that end lines. -/
def isPermitted (c : Char) : Bool :=
  let n := c.toNat
  c = '\t' || c = '\n' || c = '\r' || (0x20 ≤ n && n ≤ 0x7e) || n = 0x85
    || (0xa0 ≤ n && n ≤ 0xfffd) || 0x10000 ≤ n

/-- Whether no word goes on here: the text ends, or a blank or the end of the line follows. -/
def endsWord : List Char → Bool
  | [] => true
  | c :: _ => isBlank c || isBreak c

/-- What is left of a text, and where it starts. -/
structure Cursor where
  rest : List Char
  line : Nat
  column : Nat
  /-- The number of bytes before. -/
  offset : Nat

namespace Cursor

/-- The start of a text. -/
def start (text : List Char) : Cursor := ⟨text, 0, 0, 0⟩

/-- The next character. -/
def head? (c : Cursor) : Option Char := c.rest.head?

/-- Whether the next character is the given one. -/
def isAt (c : Cursor) (x : Char) : Bool := c.rest.head? = some x

/-- The place after some characters of the same line. -/
def skip (c : Cursor) (taken rest : List Char) : Cursor :=
  ⟨rest, c.line, c.column + taken.length, taken.foldl (fun n x => n + x.utf8Size) c.offset⟩

/-- The place after the next character, which does not end the line. -/
def next (c : Cursor) : Cursor :=
  match c.rest with
  | [] => c
  | x :: rest => ⟨rest, c.line, c.column + 1, c.offset + x.utf8Size⟩

/-- The characters up to the first that does not satisfy a condition, and the place of that. The
condition holds of no character that ends a line. -/
def span (c : Cursor) (p : Char → Bool) : List Char × Cursor :=
  let taken := c.rest.takeWhile p
  (taken, c.skip taken (c.rest.dropWhile p))

/-- The place of the first character that does not satisfy a condition. -/
def skipWhile (c : Cursor) (p : Char → Bool) : Cursor := (c.span p).2

/-- What the end of a line that stands here counts as, and the start of the next line. -/
def lineEnd? (c : Cursor) : Option (Char × Cursor) :=
  match c.rest with
  | '\r' :: '\n' :: rest => some ('\n', ⟨rest, c.line + 1, 0, c.offset + 2⟩)
  | x :: rest =>
    if isBreak x then
      some (if isSeparator x then x else '\n', ⟨rest, c.line + 1, 0, c.offset + x.utf8Size⟩)
    else none
  | [] => none

/-- The place after blanks and a comment. -/
def skipComment (c : Cursor) : Cursor :=
  let c := c.skipWhile isBlank
  if c.isAt '#' then c.skipWhile fun x => !isBreak x else c

/-- The start of the next line, if nothing but a comment is left of this one. The end of the text
ends a line too. -/
def finishLine? (c : Cursor) : Option Cursor :=
  let c := c.skipComment
  match c.lineEnd? with
  | some (_, next) => some next
  | none => if c.rest.isEmpty then some c else none

/-- Whether three equal characters alone begin a line here, as the marks between documents do. -/
def isMark (c : Cursor) (x : Char) : Bool :=
  c.column = 0 &&
    match c.rest with
    | a :: b :: d :: rest => a = x && b = x && d = x && endsWord rest
    | _ => false

/-- Whether a mark that starts or ends a document stands here. -/
def isDocumentMark (c : Cursor) : Bool := c.isMark '-' || c.isMark '.'

end Cursor

end FieldVault.Yaml
