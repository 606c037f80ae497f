import FieldVault.Yaml.Scalar.Gap

/-!
# Quoted scalars

In single quotes a quote is written twice. In double quotes a backslash starts an escape; before
the end of a line it joins the lines. A quoted scalar may go on over lines, but not over a mark
between documents.
-/

set_option autoImplicit false

namespace FieldVault.Yaml

/-- The characters that escapes of one letter stand for. -/
def shortEscapes : List (Char × Char) := [
  ('0', '\x00'), ('a', '\x07'), ('b', '\x08'), ('t', '\t'), ('\t', '\t'), ('n', '\n'),
  ('v', '\x0b'), ('f', '\x0c'), ('r', '\r'), ('e', '\x1b'), (' ', ' '), ('\x22', '\x22'),
  ('/', '/'), ('\\', '\\'), ('N', '\u0085'), ('_', '\u00a0'), ('L', '\u2028'), ('P', '\u2029')]

/-- The number of digits after the letters of escapes by code point. -/
def longEscapes : List (Char × Nat) := [('x', 2), ('u', 4), ('U', 8)]

/-- The value of a hexadecimal digit. -/
def hexValue? (c : Char) : Option Nat :=
  if '0' ≤ c ∧ c ≤ '9' then some (c.toNat - 48)
  else if 'a' ≤ c ∧ c ≤ 'f' then some (c.toNat - 87)
  else if 'A' ≤ c ∧ c ≤ 'F' then some (c.toNat - 55)
  else none

/-- The number that hexadecimal digits at the front of a text write. -/
def hexNumber? : Nat → Nat → List Char → Option Nat
  | 0, code, _ => some code
  | _ + 1, _, [] => none
  | count + 1, code, c :: rest => do hexNumber? count (16 * code + (← hexValue? c)) rest

/-- The character that an escape stands for, after its backslash, and its length. -/
def escape? : List Char → Option (Char × Nat)
  | [] => none
  | c :: rest =>
    match longEscapes.lookup c with
    | some count => do
      let code ← hexNumber? count 0 rest
      if code.isValidChar then return (Char.ofNat code, count + 1) else none
    | none => (shortEscapes.lookup c).map fun value => (value, 1)

/-- How a word of a quoted scalar ends. -/
inductive WordEnd where
  /-- With the closing quote, which has been taken. -/
  | quote
  /-- With a backslash and the end of the line, which have been taken. -/
  | joined
  /-- With a blank, the end of the line or that of the text. -/
  | unfinished
deriving DecidableEq

/-- A word in single quotes, added in reverse to the text before it. Every round takes a
character, so the text is enough fuel. -/
def singleWord : List Char → List Char → Cursor → WordEnd × List Char × Cursor
  | [], text, cursor => (.unfinished, text, cursor)
  | _ :: fuel, text, cursor =>
    match cursor.rest with
    | [] => (.unfinished, text, cursor)
    -- two quotes are one character, so they are looked for before the closing one
    | '\x27' :: '\x27' :: _ => singleWord fuel ('\x27' :: text) cursor.next.next
    | c :: _ =>
      if c = '\x27' then (.quote, text, cursor.next)
      else if isBlank c || isBreak c then (.unfinished, text, cursor)
      else singleWord fuel (c :: text) cursor.next

/-- A word in double quotes, added in reverse to the text before it. -/
def doubleWord : List Char → List Char → Cursor → Option (WordEnd × List Char × Cursor)
  | [], text, cursor => some (.unfinished, text, cursor)
  | _ :: fuel, text, cursor =>
    match cursor.rest with
    | [] => some (.unfinished, text, cursor)
    | c :: rest =>
      if c = '\x22' then some (.quote, text, cursor.next)
      else if isBlank c || isBreak c then some (.unfinished, text, cursor)
      else if c = '\\' then
        match cursor.next.lineEnd? with
        | some (_, next) => some (.joined, text, next)
        | none => do
          let (value, length) ← escape? rest
          doubleWord fuel (value :: text)
            (cursor.skip ('\\' :: rest.take length) (rest.drop length))
      else doubleWord fuel (c :: text) cursor.next

/-- A word of a quoted scalar. -/
def quotedWord (single : Bool) (text : List Char) (cursor : Cursor) :
    Option (WordEnd × List Char × Cursor) :=
  if single then some (singleWord cursor.rest text cursor)
  else doubleWord cursor.rest text cursor

/-- The quoted scalar that goes on after `text`, given in reverse, and its end. Every round takes
a character, so the text is enough fuel. -/
def quotedWords (single : Bool) : List Char → List Char → Cursor → Option (String × Cursor)
  | [], _, _ => none
  | _ :: fuel, text, cursor =>
    if cursor.isDocumentMark || cursor.rest.isEmpty then none
    else do
      let (ending, text, cursor) ← quotedWord single text cursor
      if ending = .quote then return (String.ofList text.reverse, cursor)
      -- a joined line has its end taken already, so the gap has no first line end
      let gap := if ending = .joined then Gap.lines none [] else .none
      let (gap, cursor) ← Gap.read? 0 cursor.rest gap cursor
      quotedWords single fuel (gap.joint ++ text) cursor

/-- The quoted scalar after its opening quote. -/
def quotedScalar? (single : Bool) (cursor : Cursor) : Option (String × Cursor) :=
  quotedWords single cursor.rest [] cursor

end FieldVault.Yaml
