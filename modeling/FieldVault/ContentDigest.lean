import FieldVault.Hex
import FieldVault.Sha2

/-!
# Digests of content

The digest of content is its SHA-512 hash in lowercase hexadecimal. Content above a size
threshold is read from a source in pieces and hashed as it arrives. A source may deliver short
pieces, be interrupted, or fail; it is closed once, however the reading ends.
-/

set_option autoImplicit false

namespace FieldVault

/-- What went wrong in reading. -/
inductive ReadFault where
  | other
  | wouldBlock
  | unexpectedEnd
deriving DecidableEq

/-- What one call to a source does. -/
inductive ReadStep where
  /-- It delivers at most so many bytes; none is the end of the content. -/
  | deliver (limit : Nat)
  /-- It is interrupted and has to be repeated. -/
  | interrupted
  /-- It fails. -/
  | failed (fault : ReadFault)
deriving DecidableEq

/-- A source of content: what is left of it, how the next calls go, how often it has been read
and how often it has been closed. After the scripted calls it delivers as much as is asked for. -/
structure Source where
  content : Bytes
  script : List ReadStep
  reads : Nat
  closed : Nat

namespace Source

/-- A source that has not been read. -/
def start (content : Bytes) (script : List ReadStep) : Source := ⟨content, script, 0, 0⟩

/-- The outcome of a call: the bytes delivered, or nothing for an interruption. -/
inductive Outcome where
  | delivered (piece : Bytes)
  | interrupted
  | failed (fault : ReadFault)

/-- One call for at most `size` bytes. -/
def read (size : Nat) (s : Source) : Outcome × Source :=
  let deliver (n : Nat) (script : List ReadStep) : Outcome × Source :=
    (.delivered (s.content.take n), ⟨s.content.drop n, script, s.reads + 1, s.closed⟩)
  match s.script with
  | [] => deliver size []
  | .deliver limit :: script => deliver (min limit size) script
  | .interrupted :: script => (.interrupted, ⟨s.content, script, s.reads + 1, s.closed⟩)
  | .failed fault :: script => (.failed fault, ⟨s.content, script, s.reads + 1, s.closed⟩)

/-- The source after it has been given up. -/
def close (s : Source) : Source := { s with closed := s.closed + 1 }

/-- A number of calls within which the reading of the source ends: every call takes a step of
the script or a byte of the content, and one finds the end. -/
def callLimit (s : Source) : Nat := s.script.length + s.content.length + 1

end Source

namespace ContentDigest

/-- The digest of bytes. -/
def ofBytes (content : Bytes) : String := Hex.encode (Sha2.sha512 content)

/-- The digest of the UTF-8 bytes of a text. -/
def ofText (content : String) : String := ofBytes (Bytes.ofText content)

/-- Bytes asked for in one call. -/
def chunkSize : Nat := 1024 * 1024

/-- The hash of everything a source delivers up to its end, or the fault that stops it. -/
def drain : Nat → Sha2.Hasher UInt64 → Source → Except ReadFault (Sha2.Hasher UInt64) × Source
  -- the limit on calls is never reached
  | 0, hasher, source => (.ok hasher, source)
  | calls + 1, hasher, source =>
    match source.read chunkSize with
    | (.delivered [], source) => (.ok hasher, source)
    | (.delivered piece, source) => drain calls (hasher.update piece) source
    | (.interrupted, source) => drain calls hasher source
    | (.failed fault, source) => (.error fault, source)

/-- The digest of what a source delivers, and the source after it was closed. -/
def ofSource (source : Source) : Except ReadFault String × Source :=
  let (result, source) := drain source.callLimit (Sha2.Hasher.start UInt64) source
  (result.map fun hasher => Hex.encode hasher.finish, source.close)

/-- The digest of content, read as a source if it is longer than the threshold. -/
def auto (content : Bytes) (threshold : Nat) : String :=
  if content.length ≤ threshold then ofBytes content
  else match (ofSource (.start content [])).1 with
    | .ok digest => digest
    | .error _ => ofBytes content

end ContentDigest

end FieldVault
