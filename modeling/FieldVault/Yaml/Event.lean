import FieldVault.Yaml.Token

/-!
# Events of YAML text

The tokens of a document tell what it holds, one thing after another: a scalar, an alias, the
start or the end of a list or mapping. A stack of places says what may come next. Every step
looks at the next tokens, says at most one thing, and puts the places that follow on the stack;
the document ends with the stack (`Event.ofTokens?`). Where nothing is written, there is an empty
plain scalar.
-/

set_option autoImplicit false

namespace FieldVault.Yaml

/-- What a node has besides its content. -/
structure Properties where
  anchor : Option String
  tag : Option Bytes
deriving DecidableEq

/-- No properties. -/
def Properties.none : Properties := ⟨Option.none, Option.none⟩

/-- Whether a node has any of them. -/
def Properties.isSome (p : Properties) : Bool := p.anchor.isSome || p.tag.isSome

/-- What is said at one point of a document. -/
inductive Event where
  | alias (name : String)
  | scalar (properties : Properties) (isPlain : Bool) (text : String)
  | listStart (properties : Properties)
  | listEnd
  | mappingStart (properties : Properties)
  | mappingEnd
deriving DecidableEq

namespace Event

/-- What stands where nothing is written. -/
def empty : Event := .scalar .none true ""

/-- What may come next. -/
inductive Place where
  /-- A node, which may be indented or not; where it may be bare, a list whose dashes stand at the
  column of the mapping around it. -/
  | node (indented bare : Bool)
  /-- An item of an indented list, or its end. -/
  | blockItem
  /-- An item of a bare list, or its end. -/
  | bareItem
  /-- A key of an indented mapping, or its end. -/
  | blockKey
  | blockValue
  /-- An item of a list in brackets, or its end. -/
  | flowItem (isFirst : Bool)
  /-- The key of a mapping of one entry that is an item of a list in brackets. -/
  | pairKey
  | pairValue
  | pairEnd
  /-- A key of a mapping in braces, or its end. -/
  | flowKey (isFirst : Bool)
  | flowValue
  /-- The value of a key that has none. -/
  | noValue

/-- What a step says, which places follow, and the tokens after it. -/
structure Step where
  said : Option Event
  places : List Place
  rest : List Token

/-- A node, or an empty one if there is a token that cannot start one; then the place after it. -/
def nodeUnless (stops : Token → Bool) (indented bare : Bool) (after : Place)
    (tokens : List Token) : Step :=
  if tokens.head?.any stops then ⟨some empty, [after], tokens⟩
  else ⟨none, [.node indented bare, after], tokens⟩

/-- Whether a token ends an item of an indented list. -/
def endsBlockItem (t : Token) : Bool := t = .blockEntry || t = .blockEnd

/-- Whether a token ends a key or value of an indented mapping. -/
def endsBlockPart (t : Token) : Bool := t = .key || t = .value || t = .blockEnd

/-- Whether a token ends an item of a bare list. -/
def endsBareItem (t : Token) : Bool := t = .blockEntry || endsBlockPart t

/-- Whether a token ends an item of a list in brackets. -/
def endsFlowItem (t : Token) : Bool := t = .flowEntry || t = .flowListEnd

/-- Whether a token ends a value of a mapping in braces. -/
def endsFlowValue (t : Token) : Bool := t = .flowEntry || t = .flowMappingEnd

/-! ### Nodes -/

/-- What handles are short for. -/
abbrev Handles := List (Bytes × Bytes)

/-- The tag that a name stands for. -/
def resolveTag? (handles : Handles) (name : TagName) : Option Bytes :=
  if name.handle.isEmpty then some name.suffix
  else (handles.lookup name.handle).map fun expansion => expansion ++ name.suffix

/-- The anchor and the tag before a node, in either order. -/
def properties? (handles : Handles) : List Token → Option (Properties × List Token)
  | .anchor name :: .tag tag :: rest => do
    return (⟨some name, some (← resolveTag? handles tag)⟩, rest)
  | .tag tag :: .anchor name :: rest => do
    return (⟨some name, some (← resolveTag? handles tag)⟩, rest)
  | .anchor name :: rest => some (⟨some name, none⟩, rest)
  | .tag tag :: rest => do return (⟨none, some (← resolveTag? handles tag)⟩, rest)
  | tokens => some (.none, tokens)

/-- A written scalar. The tag of one exclamation mark says nothing about it. -/
def ofScalar (p : Properties) (isPlain : Bool) (text : String) : Event :=
  .scalar (if p.tag = some localHandle then { p with tag := none } else p) isPlain text

/-- A node of which nothing is written but its properties, of which there must be one. -/
def emptyNode? (p : Properties) (tokens : List Token) : Option Step :=
  if p.isSome then some ⟨some (.scalar p true ""), [], tokens⟩ else none

/-- A node after its properties. -/
def content? (p : Properties) (indented bare : Bool) : List Token → Option Step
  | .scalar isPlain text :: rest => some ⟨some (ofScalar p isPlain text), [], rest⟩
  | .flowListStart :: rest => some ⟨some (.listStart p), [.flowItem true], rest⟩
  | .flowMappingStart :: rest => some ⟨some (.mappingStart p), [.flowKey true], rest⟩
  | .blockEntry :: rest =>
    -- the dash is left for the place of the items to take
    if bare then some ⟨some (.listStart p), [.bareItem], .blockEntry :: rest⟩
    else emptyNode? p (.blockEntry :: rest)
  | .blockListStart :: rest =>
    if indented then some ⟨some (.listStart p), [.blockItem], rest⟩
    else emptyNode? p (.blockListStart :: rest)
  | .blockMappingStart :: rest =>
    if indented then some ⟨some (.mappingStart p), [.blockKey], rest⟩
    else emptyNode? p (.blockMappingStart :: rest)
  | tokens => emptyNode? p tokens

/-- A node. -/
def node? (handles : Handles) (indented bare : Bool) : List Token → Option Step
  | .alias name :: rest => some ⟨some (.alias name), [], rest⟩
  | tokens => do
    let (p, rest) ← properties? handles tokens
    content? p indented bare rest

/-! ### Steps -/

/-- The tokens after the comma before all items but the first; the end of the list needs none. -/
def afterComma? (isFirst : Bool) (closing : Token) : List Token → Option (List Token)
  | .flowEntry :: rest => if isFirst then some (.flowEntry :: rest) else some rest
  | tokens => if isFirst ∨ tokens.head? = some closing then some tokens else none

/-- An item of a list in brackets after its comma. -/
def flowItem : List Token → Step
  | .flowListEnd :: rest => ⟨some .listEnd, [], rest⟩
  | .key :: rest => ⟨some (.mappingStart .none), [.pairKey], rest⟩
  | tokens => ⟨none, [.node false false, .flowItem false], tokens⟩

/-- A key of a mapping in braces after its comma. -/
def flowKey : List Token → Step
  | .flowMappingEnd :: rest => ⟨some .mappingEnd, [], rest⟩
  | .key :: rest =>
    nodeUnless (fun t => t = .value || endsFlowValue t) false false .flowValue rest
  | tokens => ⟨none, [.node false false, .noValue], tokens⟩

/-- The key of a mapping of one entry; a token that shows that there is none is taken. -/
def pairKey : List Token → Step
  | [] => ⟨none, [.node false false, .pairValue], []⟩
  | t :: rest =>
    -- the token is taken even if it is the colon before the value
    if t = .value ∨ endsFlowItem t then ⟨some empty, [.pairValue], rest⟩
    else ⟨none, [.node false false, .pairValue], t :: rest⟩

/-- What the next tokens are at a place. -/
def step? (handles : Handles) : Place → List Token → Option Step
  | .node indented bare, tokens => node? handles indented bare tokens
  | .blockItem, .blockEntry :: rest =>
    some (nodeUnless endsBlockItem true false .blockItem rest)
  | .blockItem, .blockEnd :: rest => some ⟨some .listEnd, [], rest⟩
  | .blockItem, _ => none
  | .bareItem, .blockEntry :: rest => some (nodeUnless endsBareItem true false .bareItem rest)
  | .bareItem, tokens => some ⟨some .listEnd, [], tokens⟩
  | .blockKey, .key :: rest => some (nodeUnless endsBlockPart true true .blockValue rest)
  | .blockKey, .blockEnd :: rest => some ⟨some .mappingEnd, [], rest⟩
  | .blockKey, _ => none
  | .blockValue, .value :: rest => some (nodeUnless endsBlockPart true true .blockKey rest)
  | .blockValue, tokens => some ⟨some empty, [.blockKey], tokens⟩
  | .flowItem isFirst, tokens => (afterComma? isFirst .flowListEnd tokens).map flowItem
  | .pairKey, tokens => some (pairKey tokens)
  | .pairValue, .value :: rest => some (nodeUnless endsFlowItem false false .pairEnd rest)
  | .pairValue, tokens => some ⟨some empty, [.pairEnd], tokens⟩
  | .pairEnd, tokens => some ⟨some .mappingEnd, [.flowItem false], tokens⟩
  | .flowKey isFirst, tokens => (afterComma? isFirst .flowMappingEnd tokens).map flowKey
  | .flowValue, .value :: rest =>
    some (nodeUnless endsFlowValue false false (.flowKey false) rest)
  | .flowValue, tokens => some ⟨some empty, [.flowKey false], tokens⟩
  | .noValue, tokens => some ⟨some empty, [.flowKey false], tokens⟩

/-- What is said from the places of a stack on, after what has been said already, newest first,
and the tokens left. -/
def run? (handles : Handles) :
    Nat → List Place → List Event → List Token → Option (List Event × List Token)
  | _, [], said, tokens => some (said.reverse, tokens)
  | 0, _ :: _, _, _ => none
  | fuel + 1, place :: places, said, tokens =>
    match step? handles place tokens with
    | none => none
    | some step =>
      run? handles fuel (step.places ++ places) (step.said.toList ++ said) step.rest

/-- What is said from a place on. No more than three steps in turn take no token. -/
def runFrom? (handles : Handles) (place : Place) (tokens : List Token) :
    Option (List Event × List Token) :=
  run? handles (4 * tokens.length + 4) [place] [] tokens

/-! ### Documents -/

/-- The handles that need no directive. -/
def defaultHandles : Handles :=
  [(localHandle, localHandle), (Bytes.ofText "!!", Bytes.ofText "tag:yaml.org,2002:")]

/-- Whether a version is known. -/
def isKnownVersion (major minor : Nat) : Bool := major = 1 && (minor = 1 || minor = 2)

/-- The handles that directives give, and the tokens after them. The version is given once at
most, and so is every handle. -/
def directives? : Bool → Handles → List Token → Option (Handles × List Token)
  | hasVersion, handles, .version major minor :: rest =>
    if hasVersion ∨ !isKnownVersion major minor then none else directives? true handles rest
  | hasVersion, handles, .handle name expansion :: rest =>
    if (handles.lookup name).isSome then none
    else directives? hasVersion ((name, expansion) :: handles) rest
  | _, handles, tokens => some (handles ++ defaultHandles, tokens)

/-- Whether a token stands before or after a document. -/
def isOutside : Token → Bool
  | .version _ _ => true
  | .handle _ _ => true
  | .documentStart => true
  | .documentEnd => true
  | _ => false

/-- What the first document says, and the tokens after it. A document that has directives starts
with a mark. -/
def document? (tokens : List Token) : Option (List Event × List Token) := do
  let (handles, content) ← directives? false [] tokens
  match content with
  | .documentStart :: rest =>
    -- a document of which only the mark is written holds an empty scalar
    if rest.isEmpty ∨ rest.head?.any isOutside then return ([empty], rest)
    else runFrom? handles (.node true false) rest
  | _ =>
    if content.isEmpty ∨ tokens.head?.any isOutside then none
    else runFrom? handles (.node true false) tokens

/-- What the only document says. -/
def ofTokens? (tokens : List Token) : Option (List Event) := do
  let (said, rest) ← document? tokens
  if rest.all (· = .documentEnd) then return said else none

end Event

end FieldVault.Yaml
