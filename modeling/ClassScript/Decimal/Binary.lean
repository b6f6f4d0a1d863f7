/-!
# Binary form of a number

A finite number is `mantissa * 2 ^ shift / 2 ^ 1074`, the mantissa below `2 ^ 53`. With the common
denominator exact questions about numbers become questions about natural numbers.
-/

namespace ClassScript.Decimal

def twoPow (n : Nat) : Nat := Nat.pow 2 n

def tenPow (n : Nat) : Nat := Nat.pow 10 n

inductive Binary where
  | nan
  | infinite (negative : Bool)
  | finite (negative : Bool) (mantissa shift : Nat)
  deriving DecidableEq

namespace Binary

/-- Splits the 64 bits of a number into sign, exponent and fraction. -/
def ofFloat (x : Float) : Binary :=
  let bits := x.toBits.toNat
  let negative := bits / twoPow 63 == 1
  let exponent := bits / twoPow 52 % twoPow 11
  let fraction := bits % twoPow 52
  if exponent == 2047 then
    if fraction == 0 then .infinite negative else .nan
  else if exponent == 0 then .finite negative fraction 0
  else .finite negative (twoPow 52 + fraction) (exponent - 1)

/-- The magnitude counted in units of `2 ^ -1074`. -/
def units (mantissa shift : Nat) : Nat :=
  mantissa * twoPow shift

/-- The number with the given count of units, exact when the count has a 53-bit mantissa. -/
def floatOfUnits (negative : Bool) (count : Nat) : Float :=
  let shift := count.log2 + 1 - 53
  let mantissa := count / twoPow shift
  let sign := if negative then twoPow 63 else 0
  let bits :=
    if mantissa < twoPow 52 then mantissa
    else (shift + 1) * twoPow 52 + (mantissa - twoPow 52)
  Float.ofBits (UInt64.ofNat (sign + bits))

end Binary

end ClassScript.Decimal
