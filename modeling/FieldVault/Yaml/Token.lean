import FieldVault.Yaml.Tag

/-!
# Tokens of YAML text

The signs and words of a YAML text. The start and the end of an indented list or mapping have no
sign in the text, nor has a key that needs none; they are tokens all the same.
-/

set_option autoImplicit false

namespace FieldVault.Yaml

/-- A token. -/
inductive Token where
  /-- The version of the language, as a directive gives it. -/
  | version (major minor : Nat)
  /-- What a handle is short for, as a directive says it. -/
  | handle (name expansion : Bytes)
  | documentStart
  | documentEnd
  | blockListStart
  | blockMappingStart
  | blockEnd
  | flowListStart
  | flowListEnd
  | flowMappingStart
  | flowMappingEnd
  /-- The dash before an item. -/
  | blockEntry
  /-- The comma between items. -/
  | flowEntry
  | key
  | value
  | alias (name : String)
  | anchor (name : String)
  | tag (name : TagName)
  /-- A scalar, plain or not. -/
  | scalar (isPlain : Bool) (text : String)
deriving DecidableEq

end FieldVault.Yaml
