import ClassScript.Decimal.Binary

/-!
# Fewest digits that read back

Of all decimals that round to a given number, the shortest is chosen, and of several shortest ones
the nearest. For 1, 2, ..., 17 digits the two neighbours of the number on that decimal grid are
tested against the interval of reals that round to it; the first grid with a hit wins.

Everything is counted in units of `2 ^ -1076`, in which the ends of the interval are whole.
-/

namespace ClassScript.Decimal

/-- The reals that round to a number: from `low` to `high`, the ends belonging to it or not. -/
structure Interval where
  low : Nat
  value : Nat
  high : Nat
  closed : Bool
  deriving DecidableEq

/-- Below a power of two the next number is half as far away as above it. -/
def Interval.around (mantissa shift : Nat) : Interval :=
  let unit := twoPow shift
  let value := 4 * mantissa * unit
  let below := if mantissa == twoPow 52 && shift != 0 then unit else 2 * unit
  ⟨value - below, value, value + 2 * unit, mantissa % 2 == 0⟩

/-- Whether the fraction `num / den`, in the interval's units, lies in the interval. -/
def Interval.holds (i : Interval) (num den : Nat) : Bool :=
  if i.closed then decide (i.low * den ≤ num) && decide (num ≤ i.high * den)
  else decide (i.low * den < num) && decide (num < i.high * den)

/-- Interval units in one. -/
def unitsPerOne : Nat := twoPow 1076

/-- How often `value` has to be multiplied by ten to reach `one`. -/
def shiftUp : Nat → Nat → Nat → Nat
  | 0, _, _ => 0
  | fuel + 1, value, one => if one ≤ value then 0 else shiftUp fuel (10 * value) one + 1

/-- The power of ten of the leading decimal digit. -/
def leadingPower (value : Nat) : Int :=
  if unitsPerOne ≤ value then (Nat.toDigits 10 (value / unitsPerOne)).length - 1
  else - (shiftUp 400 value unitsPerOne : Int)

/-- A digit string `digits` scaled by a power of ten. -/
structure Scaled where
  digits : Nat
  power : Int
  deriving DecidableEq

/-- The better neighbour on the grid of multiples of `10 ^ power` that lies in the interval. -/
def onGrid (i : Interval) (power : Int) : Option Scaled :=
  -- One grid step is `step / den` interval units.
  let step := unitsPerOne * tenPow power.toNat
  let den := tenPow (-power).toNat
  let lower := i.value * den / step
  let upper := lower + 1
  let remainder := i.value * den % step
  let lowerFits := i.holds (lower * step) den
  let upperFits := i.holds (upper * step) den
  let lowerNearer := 2 * remainder < step || (2 * remainder == step && lower % 2 == 0)
  if lowerFits && (lowerNearer || !upperFits) then some ⟨lower, power⟩
  else if upperFits then some ⟨upper, power⟩
  else none

/-- Tries grids of ever more digits, `count` of them at most. -/
def refine (i : Interval) : Nat → Int → Scaled
  | 0, power => ⟨i.value * tenPow (-power).toNat / (unitsPerOne * tenPow power.toNat), power⟩
  | count + 1, power => (onGrid i power).getD (refine i count (power - 1))

/-- The shortest decimal that rounds to `mantissa * 2 ^ shift / 2 ^ 1074`. -/
def shortest (mantissa shift : Nat) : Scaled :=
  let i := Interval.around mantissa shift
  refine i 17 (leadingPower i.value)

end ClassScript.Decimal
