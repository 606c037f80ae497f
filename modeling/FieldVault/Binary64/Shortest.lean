import FieldVault.Binary64

/-!
# The shortest decimal form of a double

Of all decimals that round to a given double, the form has the fewest digits, and among those it
is the nearest. For each count of digits only the two neighbours of the value on that decimal
grid need to be tried, in exact arithmetic. Which digits is one question (`shortest`), how they
are laid out is another (`Layout`).
-/

set_option autoImplicit false

namespace FieldVault.Binary64

/-- A positive decimal, `digits · 10 ^ exponent`. -/
structure Decimal where
  digits : Nat
  exponent : Int
deriving DecidableEq, Repr

/-- The number of decimal digits of a number; none for zero. -/
def decimalLength (n : Nat) : Nat := if n = 0 then 0 else (Nat.toDigits 10 n).length

/-- The greatest power of ten that is at most `n / d`. -/
def floorLog10 (n d : Nat) : Int :=
  if d ≤ n then decimalLength (n / d) - 1
  else -(decimalLength ((d + n - 1) / n - 1) : Int)

/-- The double `significand · 2 ^ exponent` and its neighbourhood, in quarter units of the last
place: the reals between the bounds round to it, and so do the bounds if they are included. -/
structure Neighbourhood where
  lower : Nat
  centre : Nat
  upper : Nat
  included : Bool
  exponent : Int

/-- The neighbourhood of a positive finite double. Below a power of two the doubles are twice as
dense. -/
def neighbourhood (significand : Nat) (exponent : Int) : Neighbourhood :=
  let below := if significand = 1 <<< 52 ∧ minExponent < exponent then 1 else 2
  ⟨4 * significand - below, 4 * significand, 4 * significand + 2, significand % 2 = 0,
    exponent - 2⟩

/-- How the nearer of two neighbours is chosen on an exact tie. -/
inductive Tie where
  | toEven
  | up

/-- The nearest decimal on the grid of multiples of `10 ^ power` that rounds to the double. -/
def onGrid (tie : Tie) (h : Neighbourhood) (power : Int) : Option Decimal :=
  -- everything is scaled to whole numbers before it is compared
  let unit := Nat.pow 10 (-power).toNat <<< h.exponent.toNat
  let step := Nat.pow 10 power.toNat <<< (-h.exponent).toNat
  let lower := h.lower * unit
  let centre := h.centre * unit
  let upper := h.upper * unit
  let inside (c : Nat) : Bool :=
    if h.included then lower ≤ c * step && c * step ≤ upper
    else lower < c * step && c * step < upper
  let down := centre / step
  let up := down + 1
  let preferUp : Bool :=
    let twice := 2 * centre
    let middle := (2 * down + 1) * step
    middle < twice || (middle = twice && (match tie with | .up => true | .toEven => down % 2 = 1))
  -- zero is no positive decimal, even if it lies within the bounds
  if inside down && 0 < down then
    if inside up && preferUp then some ⟨up, power⟩ else some ⟨down, power⟩
  else if inside up then some ⟨up, power⟩ else none

/-- The first decimal found on ever finer grids. -/
def search (tie : Tie) (h : Neighbourhood) : Nat → Int → Decimal
  | 0, power => ⟨h.centre, power⟩
  | count + 1, power =>
    match onGrid tie h power with
    | some d => d
    | none => search tie h count (power - 1)

/-- The decimal without the zeros at its end, of which there are at most `count`. -/
def trim : Nat → Decimal → Decimal
  | 0, d => d
  | count + 1, d => if d.digits % 10 = 0 then trim count ⟨d.digits / 10, d.exponent + 1⟩ else d

/-- The shortest decimal that rounds to a positive finite double. -/
def shortest (tie : Tie) (significand : Nat) (exponent : Int) : Decimal :=
  let n := significand <<< exponent.toNat
  let d := 1 <<< (-exponent).toNat
  trim 17 (search tie (neighbourhood significand exponent) 17 (floorLog10 n d))

/-- How a double is written. -/
structure Layout where
  /-- Which way an exact tie between two shortest decimals goes. -/
  tie : Tie
  /-- Whether a value whose leading digit stands at the given power of ten is written out. -/
  isPositional : Int → Bool
  /-- Whether a whole value written out ends in `.0`. -/
  keepsPoint : Bool
  /-- What stands before a positive exponent. -/
  exponentSign : String
  /-- The text of infinity. -/
  infinity : String
  /-- The text of no number. -/
  nan : String

/-- The digits of a decimal written out around the point. -/
def positional (keepsPoint : Bool) (d : Decimal) : String :=
  let digits := Nat.toDigits 10 d.digits
  if 0 ≤ d.exponent then
    String.ofList (digits ++ List.replicate d.exponent.toNat '0')
      ++ (if keepsPoint then ".0" else "")
  else
    let places := (-d.exponent).toNat
    let padded := List.replicate (places + 1 - digits.length) '0' ++ digits
    let whole := padded.length - places
    String.ofList (padded.take whole) ++ "." ++ String.ofList (padded.drop whole)

/-- The digits of a decimal with one before the point, and the power of ten. -/
def scientific (exponentSign : String) (d : Decimal) : String :=
  let digits := Nat.toDigits 10 d.digits
  let power : Int := d.exponent + digits.length - 1
  let fraction := digits.drop 1
  String.ofList (digits.take 1)
    ++ (if fraction.isEmpty then "" else "." ++ String.ofList fraction)
    ++ "e" ++ (if power < 0 then "-" else exponentSign) ++ toString power.natAbs

/-- The text of a double in a layout. -/
def Layout.render (layout : Layout) (x : Binary64) : String :=
  match x.value with
  | .nan => layout.nan
  | .infinite negative => (if negative then "-" else "") ++ layout.infinity
  | .finite negative m e =>
    (if negative then "-" else "") ++
      if m = 0 then (if layout.keepsPoint then "0.0" else "0")
      else
        let d := shortest layout.tie m e
        let power : Int := d.exponent + decimalLength d.digits - 1
        if layout.isPositional power then positional layout.keepsPoint d
        else scientific layout.exponentSign d

end FieldVault.Binary64
