/-!
# Double-precision numbers

A double is its 64 bits. `value` says which number the bits stand for, and every operation is
the exact one on those numbers followed by one rounding to the nearest double, ties to the even
significand (`ofRatio`). Nothing here depends on the machine's own floating point.
-/

set_option autoImplicit false

namespace FieldVault

/-- A double-precision number, as its bits. -/
structure Binary64 where
  bits : UInt64
deriving DecidableEq, Repr

namespace Binary64

/-- What the bits of a double stand for. A finite value is `± significand · 2 ^ exponent`. -/
inductive Value where
  | nan
  | infinite (negative : Bool)
  | finite (negative : Bool) (significand : Nat) (exponent : Int)
deriving DecidableEq, Repr

/-- The least exponent of a significand. -/
def minExponent : Int := -1074

/-- The magnitude bits of infinity; greater ones are not numbers. -/
def infinityMagnitude : Nat := 2047 <<< 52

/-- The bits without the sign. -/
def magnitude (x : Binary64) : Nat := x.bits.toNat % (1 <<< 63)

/-- Whether the sign bit is set. -/
def isNegative (x : Binary64) : Bool := 1 <<< 63 ≤ x.bits.toNat

/-- The number that a double stands for. -/
def value (x : Binary64) : Value :=
  if infinityMagnitude < x.magnitude then .nan
  else if x.magnitude = infinityMagnitude then .infinite x.isNegative
  else
    let biased : Nat := x.magnitude >>> 52
    let fraction : Nat := x.magnitude % (1 <<< 52)
    -- below the least normal exponent there is no leading one
    if biased = 0 then .finite x.isNegative fraction minExponent
    else .finite x.isNegative ((1 <<< 52) + fraction) ((biased : Int) - 1 + minExponent)

/-- The double with the given sign and magnitude bits. -/
def ofMagnitude (negative : Bool) (magnitude : Nat) : Binary64 :=
  ⟨UInt64.ofNat ((if negative then 1 <<< 63 else 0) + magnitude)⟩

/-- Zero with a sign. -/
def zero (negative : Bool) : Binary64 := ofMagnitude negative 0

/-- Infinity with a sign. -/
def infinity (negative : Bool) : Binary64 := ofMagnitude negative infinityMagnitude

/-- The double that is not a number. -/
def notANumber : Binary64 := ofMagnitude false (infinityMagnitude + (1 <<< 51))

/-- One. -/
def one : Binary64 := ofMagnitude false (1023 <<< 52)

/-- The quotient of two numbers rounded to the nearest whole number, ties to even. -/
def divideToEven (n d : Nat) : Nat :=
  let q := n / d
  let r := n % d
  -- on a tie the parity of `q` leads to the even neighbour
  if 2 * r < d then q else if d < 2 * r then q + 1 else q + q % 2

/-- The numerator and denominator of `n / d · 2 ^ -e`. -/
def scale (n d : Nat) (e : Int) : Nat × Nat := (n <<< (-e).toNat, d <<< e.toNat)

/-- The exponent at which the quotient `n / d` has a significand of 53 bits. -/
def exponentOf (n d : Nat) : Int :=
  let guess : Int := (n.log2 : Int) - d.log2
  let (sn, sd) := scale n d guess
  (if sn < sd then guess - 1 else guess) - 52

/-- The double nearest to `± n / d`, ties to the even significand. -/
def ofRatio (negative : Bool) (n d : Nat) : Binary64 :=
  if n = 0 then zero negative
  else
    let e := max minExponent (exponentOf n d)
    let (sn, sd) := scale n d e
    -- the leading bit, and a carry out of the rounding, each add one to the exponent
    let magnitude := ((e - minExponent).toNat <<< 52) + divideToEven sn sd
    ofMagnitude negative (min magnitude infinityMagnitude)

/-- The double nearest to a natural number. -/
def ofNat (n : Nat) : Binary64 := ofRatio false n 1

/-- The double nearest to an integer. -/
def ofInt (i : Int) : Binary64 := ofRatio (i < 0) i.natAbs 1

/-- The double nearest to `± m · 2 ^ e`. -/
def ofScaled (negative : Bool) (m : Nat) (e : Int) : Binary64 :=
  ofRatio negative (m <<< e.toNat) (1 <<< (-e).toNat)

/-- Whether a double is neither infinite nor no number. -/
def isFinite (x : Binary64) : Bool := x.magnitude < infinityMagnitude

/-- Whether a double is no number. -/
def isNaN (x : Binary64) : Bool := infinityMagnitude < x.magnitude

/-- Whether a double is a zero of either sign. -/
def isZero (x : Binary64) : Bool := x.magnitude = 0

/-- The double with the opposite sign. -/
def neg (x : Binary64) : Binary64 := ofMagnitude (!x.isNegative) x.magnitude

/-- The product, rounded. -/
def mul (x y : Binary64) : Binary64 :=
  match x.value, y.value with
  | .nan, _ => notANumber
  | _, .nan => notANumber
  | .infinite s, .infinite t => infinity (s != t)
  | .infinite s, .finite t m _ => if m = 0 then notANumber else infinity (s != t)
  | .finite s m _, .infinite t => if m = 0 then notANumber else infinity (s != t)
  | .finite s m e, .finite t n f => ofScaled (s != t) (m * n) (e + f)

/-- The whole number `± m`. -/
def signed (negative : Bool) (m : Nat) : Int := if negative then -m else m

/-- The sum, rounded. -/
def add (x y : Binary64) : Binary64 :=
  match x.value, y.value with
  | .nan, _ => notANumber
  | _, .nan => notANumber
  | .infinite s, .infinite t => if s = t then infinity s else notANumber
  | .infinite s, .finite _ _ _ => infinity s
  | .finite _ _ _, .infinite t => infinity t
  | .finite s m e, .finite t n f =>
    let unit := min e f
    let sum :=
      signed s (m <<< (e - unit).toNat) + signed t (n <<< (f - unit).toNat)
    -- a sum of zero is positive, unless both numbers are negative zeros
    if sum = 0 then zero (s && t) else ofScaled (sum < 0) sum.natAbs unit

/-- The quotient, rounded. -/
def div (x y : Binary64) : Binary64 :=
  match x.value, y.value with
  | .nan, _ => notANumber
  | _, .nan => notANumber
  | .infinite _, .infinite _ => notANumber
  | .infinite s, .finite t _ _ => infinity (s != t)
  | .finite s _ _, .infinite t => zero (s != t)
  | .finite s m e, .finite t n f =>
    if n = 0 then (if m = 0 then notANumber else infinity (s != t))
    else
      let (sm, sn) := scale m n (f - e)
      ofRatio (s != t) sm sn

/-- The place of a double in the order of numbers; both zeros have the same one. -/
def rank (x : Binary64) : Int := if x.isNegative then -x.magnitude else x.magnitude

/-- Whether one double is less than another; no comparison holds of one that is no number. -/
def lt (x y : Binary64) : Bool := !x.isNaN && !y.isNaN && x.rank < y.rank

/-- Whether one double is at most another; no comparison holds of one that is no number. -/
def le (x y : Binary64) : Bool := !x.isNaN && !y.isNaN && x.rank ≤ y.rank

/-- The greatest 64-bit number. -/
def maxWord : Nat := (1 <<< 64) - 1

/-- The whole part of a double as a 64-bit number: below the range it is zero, above it the
greatest one, and zero for no number. -/
def floorWord (x : Binary64) : Nat :=
  match x.value with
  | .nan => 0
  | .infinite negative => if negative then 0 else maxWord
  | .finite negative m e =>
    if negative then 0 else min maxWord ((m <<< e.toNat) >>> (-e).toNat)

/-- The nearest whole number as a 64-bit number, halves away from zero, with the same limits. -/
def roundWord (x : Binary64) : Nat :=
  match x.value with
  | .nan => 0
  | .infinite negative => if negative then 0 else maxWord
  | .finite negative m e =>
    if negative then 0
    -- half a unit is added before the fraction is cut off
    else min maxWord (((m <<< (e.toNat + 1)) + (1 <<< (-e).toNat)) >>> ((-e).toNat + 1))

end Binary64

end FieldVault
