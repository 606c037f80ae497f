import FieldVault.Binary64.Logarithm

/-!
# Strength of secrets

A text is fit to be key material if it is long enough, if its characters carry at least 3.5 bits
of Shannon entropy each, and if at least a quarter of its characters are distinct. The entropy is
a sum of doubles, which machines do not round alike: the logarithms differ in their last digits,
and the order in which a hash table gives its entries is no order to rely on. Both are left to a
`Machine`, and a text at 3.5 bits may be strong on one machine and weak on another.
-/

set_option autoImplicit false

namespace FieldVault.Entropy

/-- What is left to the machine that computes an entropy. -/
class Machine where
  /-- The binary logarithm, with the digits that the machine gives it. -/
  log2 : Binary64 → Binary64
  /-- The entries of a table of characters, in the order in which they are gone through. -/
  order : List (Char × Nat) → List (Char × Nat)
  /-- Every entry comes once. -/
  order_perm : ∀ table, (order table).Perm table

/-- Unless another machine is given, logarithms are rounded from their digits, and tables are gone
through in the order in which they were filled. -/
instance : Machine where
  log2 := Binary64.log2
  order table := table
  order_perm table := .refl table

/-- A table with one more occurrence of a character. -/
def addTo (c : Char) : List (Char × Nat) → List (Char × Nat)
  | [] => [(c, 1)]
  | (other, n) :: rest =>
    if other = c then (other, n + 1) :: rest else (other, n) :: addTo c rest

/-- The distinct characters of a text, each with the number of its occurrences. -/
def table (text : String) : List (Char × Nat) := text.toList.foldr addTo []

/-- The number of characters of a text. -/
def size (text : String) : Nat := text.toList.length

/-- What a character that occurs `n` times adds to the entropy of `total` characters. -/
def bitsOf [Machine] (total n : Nat) : Binary64 :=
  let share := (Binary64.ofNat n).div (.ofNat total)
  share.neg.mul (Machine.log2 share)

/-- The entropy of a text in bits per character. That of the empty text is zero. -/
def shannon [Machine] (text : String) : Binary64 :=
  ((Machine.order (table text)).map fun entry => bitsOf (size text) entry.2).foldl .add
    (.zero false)

/-- The least length that may be asked for. -/
def floorLength : Nat := 22

/-- The least entropy of a strong text, 3.5 bits per character. -/
def leastBits : Binary64 := .ofRatio false 7 2

/-- The least share of distinct characters in a strong text, one quarter. -/
def leastShare : Binary64 := .ofRatio false 1 4

/-- Whether enough of `total` characters are distinct. -/
def reachesDistinctFloor (total distinct : Nat) : Bool :=
  leastShare.le ((Binary64.ofNat distinct).div (.ofNat total))

/-- What can be wrong with a question about the strength of a secret. -/
inductive Fault where
  /-- A smaller length was asked for than the floor allows. -/
  | lengthBelowFloor (requested : Nat)
deriving DecidableEq

/-- The text of a fault. -/
def Fault.message : Fault → String
  | .lengthBelowFloor n =>
    "minimum length " ++ toString n ++ " is below the floor of " ++ toString floorLength

/-- Whether a text of at least `minimum` characters is strong enough. -/
def isStrong [Machine] (text : String) (minimum : Nat) : Bool :=
  minimum ≤ size text && !(shannon text).lt leastBits
    && reachesDistinctFloor (size text) (table text).length

/-- The answer to whether a secret is strong enough, for lengths that may be asked for. -/
def hasMinimum [Machine] (secret : String) (minimum : Nat) : Except Fault Bool :=
  if minimum < floorLength then .error (.lengthBelowFloor minimum)
  else .ok (isStrong secret minimum)

/-- The entropy of a text in bits per character, in units of `1 / scale`, to the nearest one. -/
def bitsPerCharacter [Machine] (scale : Nat) (text : String) : Nat :=
  ((shannon text).mul (.ofNat scale)).roundWord

end FieldVault.Entropy
