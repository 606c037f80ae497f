/-!
# Field paths

A field path names the fields of a document from the root on: the names of members, joined by
points, with `[]` after a name for every item of the array it holds. Reading a path and writing
its segments are inverse to each other.
-/

set_option autoImplicit false

namespace FieldVault.Document

/-- One step of a path: to a member by name, or to every item of an array. -/
inductive Segment where
  | member (name : String)
  | items
deriving DecidableEq

/-- The parts of a text between points, of which there is at least one. -/
def splitAtPoints : List Char → List (List Char)
  | [] => [[]]
  | c :: rest =>
    if c = '.' then [] :: splitAtPoints rest
    else match splitAtPoints rest with
      | part :: parts => (c :: part) :: parts
      | [] => [[c]]

/-- The name before a final `[]`, if a part ends in one. -/
def arrayName? (part : List Char) : Option (List Char) :=
  match part.reverse with
  | ']' :: '[' :: rest => some rest.reverse
  | _ => none

/-- The segments of one part of a path. -/
def segmentsOf (part : List Char) : List Segment :=
  match arrayName? part with
  | some name => [.member (String.ofList name), .items]
  | none => [.member (String.ofList part)]

/-- The segments of a path. -/
def parsePath (path : String) : List Segment := (splitAtPoints path.toList).flatMap segmentsOf

end FieldVault.Document
