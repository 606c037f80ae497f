import FieldVault.Document.Path
import FieldVault.Json

/-!
# Visiting the fields of a document

A visitor is called for every text at the end of a path, path by path, with the items of an array
in their order. It answers with a new text or fails. The document that results is given in
either case: texts visited before a failure keep their new contents, and nothing after it is
touched.
-/

set_option autoImplicit false

namespace FieldVault.Document

section

variable {m : Type → Type} [Monad m] {ε : Type}

/-- Visit the items of an array in order, up to the first failure. -/
def visitItems (visit : Json → m (Json × Except ε Nat)) :
    List Json → m (List Json × Except ε Nat)
  | [] => pure ([], .ok 0)
  | item :: rest => do
    let (item, result) ← visit item
    match result with
    | .error e => return (item :: rest, .error e)
    | .ok n =>
      let (rest, result) ← visitItems visit rest
      return (item :: rest, result.map (n + ·))

/-- Visit the member of an object with the given name. -/
def visitMember (visit : Json → m (Json × Except ε Nat)) (name : String) :
    List (String × Json) → m (List (String × Json) × Except ε Nat)
  | [] => pure ([], .ok 0)
  | (other, value) :: rest => do
    if other = name then
      let (value, result) ← visit value
      return ((other, value) :: rest, result)
    else
      let (rest, result) ← visitMember visit name rest
      return ((other, value) :: rest, result)

/-- Visit the texts that a list of segments leads to; the number of texts visited. -/
def visitSegments (visitor : String → m (Except ε String)) :
    List Segment → Json → m (Json × Except ε Nat)
  | [], .str text => do
    match ← visitor text with
    | .ok text => return (.str text, .ok 1)
    | .error e => return (.str text, .error e)
  | .member name :: rest, .obj members => do
    let (members, result) ← visitMember (visitSegments visitor rest) name members
    return (.obj members, result)
  | .items :: rest, .arr items => do
    let (items, result) ← visitItems (visitSegments visitor rest) items
    return (.arr items, result)
  | _, value => pure (value, .ok 0)

/-- Visit the texts that any of the paths leads to, path by path; the number of visits. -/
def forEachField (visitor : String → String → m (Except ε String)) :
    List String → Json → m (Json × Except ε Nat)
  | [], document => pure (document, .ok 0)
  | path :: paths, document => do
    let (document, result) ← visitSegments (visitor path) (parsePath path) document
    match result with
    | .error e => return (document, .error e)
    | .ok n =>
      let (document, result) ← forEachField visitor paths document
      return (document, result.map (n + ·))

end

end FieldVault.Document
