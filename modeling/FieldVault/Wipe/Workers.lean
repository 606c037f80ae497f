import FieldVault.Binary64

/-!
# Workers of a flush

A flush may use a share of the cores of the machine, and always at least one worker. The count
is computed in doubles: the number of cores is rounded to a double first, and so is the product.
-/

set_option autoImplicit false

namespace FieldVault.Wipe

/-- The share of the cores used when no other is given, 0.34. -/
def defaultShare : Binary64 := Binary64.ofRatio false 34 100

/-- The share brought into the range from zero to one; the default for one that is not finite. -/
def effectiveShare (share : Binary64) : Binary64 :=
  if !share.isFinite then defaultShare
  else if share.lt (.zero false) then .zero false
  else if Binary64.one.lt share then .one
  else share

/-- The number of workers of a flush on a machine with the given number of cores. -/
def workerCount (share : Binary64) (cores : Nat) : Nat :=
  max 1 ((Binary64.ofNat cores).mul (effectiveShare share)).floorWord

end FieldVault.Wipe
