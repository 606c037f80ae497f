import FieldVault.Yaml.Event
import FieldVault.Yaml.Token.Lexer

/-!
# Nodes of YAML text

The events of a document make up a tree of scalars, lists and mappings. The tree is built in two
steps. A draft still has aliases in it, which may lead anywhere, even to a list around them; a
node has none. Following the aliases ends because lists and mappings nest at most `nestingLimit`
deep and because no more than a hundred aliases are followed for each event.
-/

set_option autoImplicit false

namespace FieldVault.Yaml

/-- A node of a document. -/
inductive Node where
  | scalar (tag : Option Bytes) (isPlain : Bool) (text : String)
  | list (tag : Option Bytes) (items : List Node)
  | mapping (tag : Option Bytes) (entries : List (Node × Node))

/-- A node whose aliases have not been followed. -/
inductive Draft where
  | scalar (tag : Option Bytes) (isPlain : Bool) (text : String)
  | list (tag : Option Bytes) (items : List Draft)
  | mapping (tag : Option Bytes) (entries : List (Draft × Draft))
  | alias (number : Nat)

/-! ### Drafts -/

/-- The numbers of anchors. A number is that of the different names before it; so an anchor whose
name has been given before shares its number with the next new name. A number stands for the last
node that has it. -/
structure Anchors where
  /-- The number of each name. -/
  numbers : List (String × Nat)
  /-- The places of the nodes with a number, counted among the nodes with anchors, the last one
  first. -/
  places : List (Nat × Nat)

/-- Anchors with another one. -/
def Anchors.insert (anchors : Anchors) (name : String) (place : Nat) : Anchors :=
  let number := anchors.numbers.length
  ⟨(name, number) :: anchors.numbers.filter (·.1 ≠ name), (number, place) :: anchors.places⟩

/-- A list or mapping whose end has not been met. -/
structure Frame where
  /-- Its place among the nodes with anchors, if it has one. -/
  place : Option Nat
  tag : Option Bytes
  isMapping : Bool
  /-- What is in it so far, the last first. -/
  items : List Draft

/-- Keys and values in turn, the last first, put as entries before others. -/
def entriesOf (entries : List (Draft × Draft)) : List Draft → List (Draft × Draft)
  | value :: key :: rest => entriesOf ((key, value) :: entries) rest
  | _ => entries

/-- The draft of a list or mapping that ends. -/
def Frame.finish (frame : Frame) : Draft :=
  if frame.isMapping then .mapping frame.tag (entriesOf [] frame.items)
  else .list frame.tag frame.items.reverse

/-- The drafts made from the events so far. -/
structure Builder where
  anchors : Anchors
  /-- The nodes with anchors, by their places. -/
  anchored : List (Nat × Draft)
  /-- The number of places. -/
  count : Nat
  /-- The lists and mappings around the next event, the innermost first. -/
  frames : List Frame
  root : Option Draft

namespace Builder

/-- The builder before the first event. -/
def start : Builder := ⟨⟨[], []⟩, [], 0, [], none⟩

/-- Note the anchor of a node that starts; gives its place. -/
def noteAnchor (b : Builder) : Option String → Option Nat × Builder
  | none => (none, b)
  | some name =>
    (some b.count, { b with anchors := b.anchors.insert name b.count, count := b.count + 1 })

/-- Add a draft where it stands. -/
def add (b : Builder) (draft : Draft) : Builder :=
  match b.frames with
  | [] => { b with root := some draft }
  | frame :: frames => { b with frames := { frame with items := draft :: frame.items } :: frames }

/-- Add the draft of a node that may have a place among those with anchors. -/
def addAt (b : Builder) (place : Option Nat) (draft : Draft) : Builder :=
  { b.add draft with anchored := (place.map fun p => (p, draft)).toList ++ b.anchored }

/-- Start a list or mapping. -/
def openFrame (b : Builder) (p : Properties) (isMapping : Bool) : Builder :=
  let (place, b) := b.noteAnchor p.anchor
  { b with frames := ⟨place, p.tag, isMapping, []⟩ :: b.frames }

/-- End the innermost list or mapping. -/
def closeFrame (b : Builder) : Builder :=
  match b.frames with
  | [] => b
  | frame :: frames => { b with frames := frames }.addAt frame.place frame.finish

/-- The builder after an event; the name of an alias must be known. -/
def step? (b : Builder) : Event → Option Builder
  | .alias name => (b.anchors.numbers.lookup name).map fun number => b.add (.alias number)
  | .scalar p isPlain text =>
    let (place, b) := b.noteAnchor p.anchor
    some (b.addAt place (.scalar p.tag isPlain text))
  | .listStart p => some (b.openFrame p false)
  | .mappingStart p => some (b.openFrame p true)
  | .listEnd => some b.closeFrame
  | .mappingEnd => some b.closeFrame

/-- The node that a number stands for. -/
def target? (b : Builder) (number : Nat) : Option Draft :=
  (b.anchors.places.lookup number).bind fun place => b.anchored.lookup place

end Builder

/-! ### Aliases -/

/-- The draft itself, or the one that an alias leads to, when a number of aliases may still be
followed. -/
def Draft.follow? (target? : Nat → Option Draft) : Draft → StateT Nat Option Draft
  | .alias number => fun left =>
    -- the count bounds the work for aliases that lead to aliases
    if left = 0 then none else (target? number).map fun draft => (draft, left - 1)
  | draft => pure draft

/-- The node of a draft in which lists and mappings nest at most `depth` deep. -/
def Draft.resolve? (target? : Nat → Option Draft) : Nat → Draft → StateT Nat Option Node
  | 0, draft => do
    match ← draft.follow? target? with
    | .scalar tag isPlain text => return .scalar tag isPlain text
    | _ => failure
  | depth + 1, draft => do
    match ← draft.follow? target? with
    | .scalar tag isPlain text => return .scalar tag isPlain text
    | .list tag items => return .list tag (← items.mapM (resolve? target? depth))
    | .mapping tag entries =>
      return .mapping tag (← entries.mapM fun (key, value) => do
        return (← resolve? target? depth key, ← resolve? target? depth value))
    | .alias _ => failure

namespace Node

/-- The greatest depth to which lists and mappings nest. -/
def nestingLimit : Nat := 128

/-- The greatest number of aliases followed for each event. -/
def aliasLimit : Nat := 100

/-- The node that events make up. -/
def ofEvents? (events : List Event) : Option Node := do
  let b ← events.foldlM Builder.step? .start
  let (node, _) ←
    ((← b.root).resolve? b.target? nestingLimit).run (aliasLimit * events.length)
  return node

/-- The node of a whole text. -/
def ofText? (text : String) : Option Node := do
  ofEvents? (← Event.ofTokens? (← Token.ofText? text))

end Node

end FieldVault.Yaml
