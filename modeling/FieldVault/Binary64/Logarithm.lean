import FieldVault.Binary64

/-!
# Binary logarithms

The logarithm of a double is found digit by digit: squaring a mantissa doubles its logarithm, so the
next digit says whether the square is two or more. The digits are cut off where the mantissas lose
theirs and then rounded to a double.
-/

set_option autoImplicit false

namespace FieldVault.Binary64

/-- Binary digits after the point to which logarithms are computed. -/
def logPrecision : Nat := 128

/-- Binary digits after the point of the mantissas they are computed from. -/
def mantissaBits : Nat := 192

/-- `count` further binary digits of a logarithm, given the digits so far and the mantissa
between one and two that is still to be taken: squaring it doubles its logarithm. -/
def logDigits : Nat → Nat → Nat → Nat
  | 0, digits, _ => digits
  | count + 1, digits, mantissa =>
    let square := (mantissa * mantissa) >>> mantissaBits
    -- a square of two or more gives a digit one and is halved
    if square < 1 <<< (mantissaBits + 1) then logDigits count (2 * digits) square
    else logDigits count (2 * digits + 1) (square / 2)

/-- The binary logarithm, rounded. -/
def log2 (x : Binary64) : Binary64 :=
  match x.value with
  | .nan => notANumber
  | .infinite negative => if negative then notANumber else infinity false
  | .finite negative m e =>
    if m = 0 then infinity true
    else if negative then notANumber
    else
      let digits := logDigits logPrecision 0 ((m <<< mantissaBits) >>> m.log2)
      let logarithm : Int := (m.log2 + e) * (1 <<< logPrecision : Nat) + digits
      ofScaled (logarithm < 0) logarithm.natAbs (-logPrecision)

end FieldVault.Binary64
