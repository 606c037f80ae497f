/-!
# Routes

The paths the service answers, with the captured parts still encoded. A path is matched as it
stands: in the case given, without a final slash, and without its query. A request target is a
path, or an address of which only the path counts.
-/

set_option autoImplicit false

namespace FieldVault.Http

/-- What a path asks for. -/
inductive Route where
  | encrypt
  | decrypt
  | hash
  | store (entity : String)
  | fetch (entity id : String)
  | health
deriving DecidableEq

namespace Route

/-- The parts of a path between slashes. -/
def splitAtSlashes : List Char → List (List Char)
  | [] => [[]]
  | c :: rest =>
    if c = '/' then [] :: splitAtSlashes rest
    else match splitAtSlashes rest with
      | part :: parts => (c :: part) :: parts
      | [] => [[c]]

/-- Whether a character may stand in the scheme of an address. -/
def isSchemeChar (c : Char) : Bool := c.isAlphanum || c = '+' || c = '-' || c = '.'

/-- What follows the authority of an address. -/
def afterAuthority? (target : List Char) : Option (List Char) :=
  match target.dropWhile isSchemeChar with
  | ':' :: '/' :: '/' :: rest => some (rest.dropWhile fun c => c ≠ '/' && c ≠ '?' && c ≠ '#')
  | _ => none

/-- The path at the front of a text, without query and fragment. -/
def beforeQuery (text : List Char) : List Char := text.takeWhile fun c => c ≠ '?' && c ≠ '#'

/-- The path of a request target. That of an address without one is a slash; a target that is
neither a path nor an address has none. -/
def pathOf (target : String) : List Char :=
  match target.toList with
  | '/' :: rest => beforeQuery ('/' :: rest)
  | text =>
    -- an address may leave its path out, a bare target may not
    match (afterAuthority? text).map beforeQuery with
    | none => []
    | some path => if path.isEmpty then ['/'] else path

/-- The route of the parts of a path. The last captured part may not be empty. -/
def ofParts? : List String → Option Route
  | ["", "encrypt"] => some .encrypt
  | ["", "decrypt"] => some .decrypt
  | ["", "hash"] => some .hash
  | ["", "health"] => some .health
  | ["", "documents", entity] => if entity = "" then none else some (.store entity)
  | ["", "documents", entity, id] => if id = "" then none else some (.fetch entity id)
  | _ => none

/-- The route of a request target. -/
def ofTarget? (target : String) : Option Route :=
  ofParts? ((splitAtSlashes (pathOf target)).map String.ofList)

/-- Whether a route is one that only gives information. -/
def isRead : Route → Bool
  | .fetch _ _ => true
  | .health => true
  | _ => false

end Route

/-- How a method suits a route. -/
inductive Access where
  /-- The method of the route. -/
  | full
  /-- The head of the answer to it. -/
  | head
  /-- No method of the route. -/
  | refused
deriving DecidableEq

/-- How a method suits a route: those that give information are asked with `GET`, the others
with `POST`. -/
def Route.access (route : Route) (method : String) : Access :=
  if route.isRead then
    if method = "GET" then .full else if method = "HEAD" then .head else .refused
  else if method = "POST" then .full else .refused

end FieldVault.Http
