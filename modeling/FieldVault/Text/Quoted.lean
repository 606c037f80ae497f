import FieldVault.Text.Hidden

/-!
# Quoted text

A text shown between quotes, so that its end and every hidden character can be seen: quotes,
backslashes and the usual control characters have short escapes, other hidden characters are
given by their code points.
-/

set_option autoImplicit false

namespace FieldVault.Text

/-- The lowercase hexadecimal digits of a code point in braces. -/
def codePoint (c : Char) : String :=
  "\\u\x7b" ++ String.ofList (Nat.toDigits 16 c.toNat) ++ "\x7d"

/-- A character as it stands between quotes. -/
def quoteChar (c : Char) : String :=
  if c = '\x00' then "\\0"
  else if c = '\t' then "\\t"
  else if c = '\n' then "\\n"
  else if c = '\r' then "\\r"
  else if c = '"' then "\\\""
  else if c = '\\' then "\\\\"
  else if isHidden c then codePoint c
  else c.toString

/-- A text between quotes. -/
def quote (text : String) : String := "\"" ++ String.join (text.toList.map quoteChar) ++ "\""

end FieldVault.Text
