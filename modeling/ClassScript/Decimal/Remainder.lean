import ClassScript.Decimal.Binary

/-!
# Truncated remainder

The remainder has the sign of the dividend and a magnitude below that of the divisor, and it is
exact. Dividing by zero, or an infinite dividend, has no remainder.
-/

namespace ClassScript.Decimal

def remainder (x y : Float) : Float :=
  match Binary.ofFloat x, Binary.ofFloat y with
  | .finite _ _ _, .infinite _ => x
  | .finite negative m s, .finite _ n t =>
    if n == 0 then 0 / 0
    else Binary.floatOfUnits negative (Binary.units m s % Binary.units n t)
  | _, _ => 0 / 0

end ClassScript.Decimal
