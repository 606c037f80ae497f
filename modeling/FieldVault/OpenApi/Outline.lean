import FieldVault.OpenApi.Schema

/-!
# The outline of a description

The forms of all parts of an OpenAPI description. Headers may hold headers, and operations may
hold paths with operations; such forms are given up to a number of levels, which is more than the
nesting of any text allows.
-/

set_option autoImplicit false

namespace FieldVault.OpenApi.Outline

open Form (members)

/-! ### General information -/

/-- A contact. -/
def contact : Form :=
  members [] [("name", .optional .text), ("url", .optional .text), ("email", .optional .text)]

/-- A licence. -/
def license : Form := members ["name"] [("name", .text), ("url", .optional .text)]

/-- The general information. -/
def info : Form :=
  members ["title", "version"] [
    ("title", .text), ("description", .optional .text), ("termsOfService", .optional .text),
    ("contact", .optional contact), ("license", .optional license), ("version", .text)]

/-- A variable in the address of a server. -/
def serverVariable : Form :=
  members ["default"] [
    ("enum", .list .text), ("default", .text), ("description", .optional .text)]

/-- A server. -/
def server : Form :=
  members ["url"] [
    ("url", .text), ("description", .optional .text),
    ("variables", .optional (.dictionary serverVariable))]

/-- A tag. -/
def tag : Form :=
  members ["name"] [
    ("name", .text), ("description", .optional .text),
    ("externalDocs", .optional externalDocsForm)]

/-- Requirements of security, with the scopes of each. -/
def security : Form := .list (.dictionary (.list .text))

/-! ### Content -/

/-- A schema, which may be a reference. -/
def schema : Form := .whole fun value => (Schema.ofDatum? value).isSome

/-- Named parts, which may be references. -/
def references (item : Form) : Form := .dictionary (.reference item)

/-- An example. -/
def exampleValue : Form :=
  members [] [
    ("summary", .optional .text), ("description", .optional .text), ("value", .optional .json),
    ("externalValue", .optional .text)]

/-- How a part of some media type is encoded, given the form of headers. -/
def encoding (header : Form) : Form :=
  members [] [
    ("contentType", .optional .text), ("headers", references header),
    ("style", .optional (.word ["form", "spaceDelimited", "pipeDelimited", "deepObject"])),
    ("explode", .flag), ("allowReserved", .flag)]

/-- Content of a media type, given the form of headers. -/
def mediaType (header : Form) : Form :=
  members [] [
    ("schema", .optional schema), ("example", .optional .json),
    ("examples", references exampleValue), ("encoding", .dictionary (encoding header))]

/-- What a parameter or header holds: a schema, or content. -/
def holdings (header : Form) : List (String × Form) :=
  [("schema", schema), ("content", .dictionary (mediaType header))]

/-- A header, with no more levels of headers than given. -/
def headerWithin : Nat → Form
  | 0 => .whole fun _ => false
  | levels + 1 =>
    .record [] [
      ("description", .optional .text), ("style", .word ["simple"]), ("required", .flag),
      ("deprecated", .optional .flag), ("example", .optional .json),
      ("examples", references exampleValue)] (holdings (headerWithin levels)) []

/-- The number of levels of forms in forms. -/
def levels : Nat := Yaml.Node.nestingLimit

/-- A header. -/
def header : Form := headerWithin levels

/-- Content by media types. -/
def content : Form := .dictionary (mediaType header)

/-! ### Parameters and answers -/

/-- A parameter of one location, with the styles that it may have. -/
def parameterWith (styles : List String) (more : List (String × Form)) : Form :=
  .record ["name"] ([
    ("name", .text), ("description", .optional .text), ("required", .flag),
    ("deprecated", .optional .flag), ("example", .optional .json),
    ("examples", references exampleValue), ("explode", .optional .flag),
    ("style", .word styles)] ++ more) (holdings header) []

/-- A parameter. -/
def parameter : Form :=
  .tagged "in" [
    ("query", parameterWith ["form", "spaceDelimited", "pipeDelimited", "deepObject"] [
      ("allowReserved", .flag), ("allowEmptyValue", .optional .flag)]),
    ("header", parameterWith ["simple"] []),
    ("path", parameterWith ["matrix", "label", "simple"] []),
    ("cookie", parameterWith ["form"] [])]

/-- The body of a request. -/
def requestBody : Form :=
  members ["content"] [
    ("description", .optional .text), ("content", content), ("required", .flag)]

/-- A link to another operation. -/
def link : Form :=
  .record [] [
    ("description", .optional .text), ("requestBody", .optional .json),
    ("parameters", .dictionary .json), ("server", .optional server)]
    [("operationRef", .text), ("operationId", .text)] []

/-- An answer. -/
def response : Form :=
  members ["description"] [
    ("description", .text), ("headers", references header), ("content", content),
    ("links", references link)]

/-- Whether a number is a status. -/
def isStatus (n : Nat) : Bool := 100 ≤ n && n ≤ 999

/-- Whether a key stands for a status or, with two letters X, for a hundred of them. -/
def isStatusKey : Datum → Bool
  | .natural n => isStatus n
  | .text name =>
    match name.toList with
    | [a, b, c] =>
      let digits := [a, b, c]
      (digits.all Binary64.isDigit && isStatus (Binary64.digitsValue digits))
        || (Binary64.isDigit a && b.toUpper = 'X' && c.toUpper = 'X')
    | _ => false
  | _ => false

/-- The answers of an operation. -/
def responses : Form :=
  .record [] [("default", .optional (.reference response))] []
    [(isStatusKey, .reference response)]

/-! ### Paths -/

/-- An operation, given the form of what stands under a path. -/
def operation (pathItem : Form) : Form :=
  members ["responses"] [
    ("tags", .list .text), ("summary", .optional .text), ("description", .optional .text),
    ("externalDocs", .optional externalDocsForm), ("operationId", .optional .text),
    ("parameters", .list (.reference parameter)),
    ("requestBody", .optional (.reference requestBody)), ("responses", responses),
    ("callbacks", .dictionary (.dictionary pathItem)), ("deprecated", .flag),
    ("security", .optional security), ("servers", .list server)]

/-- The methods that a path may have operations for. -/
def methods : List String :=
  ["get", "put", "post", "delete", "options", "head", "patch", "trace"]

/-- What stands under a path, with no more levels of paths than given. -/
def pathItemWithin : Nat → Form
  | 0 => .whole fun _ => false
  | levels + 1 =>
    let operation := operation (pathItemWithin levels)
    members [] ([
      ("summary", .optional .text), ("description", .optional .text), ("servers", .list server),
      ("parameters", .list (.reference parameter))] ++
        methods.map fun method => (method, .optional operation))

/-- What stands under a path. -/
def pathItem : Form := pathItemWithin levels

/-- Whether a key is a path. -/
def isPathKey (key : Datum) : Bool := key.text?.any fun name => name.startsWith "/"

/-- The paths. -/
def paths : Form := .record [] [] [] [(isPathKey, .reference pathItem)]

/-! ### Security -/

/-- One way to be given a token. -/
def flow (required : List String) : Form :=
  members required ((required.map fun name => (name, .text)) ++
    [("refreshUrl", .optional .text), ("scopes", .dictionary .text)])

/-- The ways to be given a token. -/
def flows : Form :=
  members [] [
    ("implicit", .optional (flow ["authorizationUrl"])),
    ("password", .optional (flow ["tokenUrl"])),
    ("clientCredentials", .optional (flow ["tokenUrl"])),
    ("authorizationCode", .optional (flow ["authorizationUrl", "tokenUrl"]))]

/-- A scheme of security. -/
def securityScheme : Form :=
  .tagged "type" [
    ("apiKey", members ["in", "name"] [
      ("in", .word ["query", "header", "cookie"]), ("name", .text),
      ("description", .optional .text)]),
    ("http", members ["scheme"] [
      ("scheme", .text), ("bearerFormat", .optional .text), ("description", .optional .text)]),
    ("oauth2", members ["flows"] [("flows", flows), ("description", .optional .text)]),
    ("openIdConnect", members ["openIdConnectUrl"] [
      ("openIdConnectUrl", .text), ("description", .optional .text)])]

/-! ### Descriptions -/

/-- The components. -/
def components : Form :=
  members [] [
    ("schemas", .dictionary schema), ("responses", references response),
    ("parameters", references parameter), ("examples", references exampleValue),
    ("requestBodies", references requestBody), ("headers", references header),
    ("securitySchemes", references securityScheme), ("links", references link),
    ("callbacks", .dictionary (.reference (.dictionary pathItem)))]

/-- A description. -/
def description : Form :=
  members ["openapi", "info", "paths"] [
    ("openapi", .text), ("info", info), ("servers", .list server), ("paths", paths),
    ("components", .optional components), ("security", .optional security),
    ("tags", .list tag), ("externalDocs", .optional externalDocsForm)]

end FieldVault.OpenApi.Outline
