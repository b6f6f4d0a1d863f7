import ClassScript.Decimal.Shortest

/-!
# Writing numbers

A number is written by its shortest digits, positionally when its decimal exponent lies between
-4 and 15 and with an exponent otherwise. What differs between outputs is kept in one record: the
words for what is no finite number, from which magnitude on whole numbers keep their fraction, and
whether a mantissa of one digit gets a point.
-/

namespace ClassScript.Decimal

structure Notation where
  nan : String
  infinity : String
  /-- Whole numbers below this magnitude are written without point and fraction. -/
  wholeBelow : Nat
  /-- Whether `1e+16` is written `1.0e+16`. -/
  pointInMantissa : Bool
  deriving DecidableEq

/-- Digits without the zeros at the end, and the power of ten of the first of them. -/
def significant (s : Scaled) : List Char × Int :=
  let digits := Nat.toDigits 10 s.digits
  let kept := (digits.reverse.dropWhile (· == '0')).reverse
  (if kept.isEmpty then ['0'] else kept, s.power + digits.length - 1)

/-- Positional form of digits whose first stands for `10 ^ power`. -/
def positional (digits : List Char) (power : Int) : List Char :=
  if power < 0 then
    ['0', '.'] ++ List.replicate ((-power).toNat - 1) '0' ++ digits
  else
    let whole := power.toNat + 1
    let fraction := digits.drop whole
    digits.take whole ++ List.replicate (whole - digits.length) '0' ++ ['.'] ++
      (if fraction.isEmpty then ['0'] else fraction)

/-- Exponent form: sign always written, two exponent digits at least. -/
def scientific (pointInMantissa : Bool) (digits : List Char) (power : Int) : List Char :=
  let exponent := Nat.toDigits 10 power.natAbs
  let mantissa := match digits with
    | [] => []
    | [d] => if pointInMantissa then [d, '.', '0'] else [d]
    | d :: fraction => d :: '.' :: fraction
  mantissa ++ ['e', if power < 0 then '-' else '+'] ++
    (if exponent.length < 2 then '0' :: exponent else exponent)

/-- A nonnegative finite number. -/
def writeMagnitude (style : Notation) (mantissa shift : Nat) : List Char :=
  if mantissa == 0 then ['0', '.', '0']
  else
    let (digits, power) := significant (shortest mantissa shift)
    if -4 ≤ power && power < 16 then positional digits power
    else scientific style.pointInMantissa digits power

/-- The whole value of a number small enough to be written without a fraction. -/
def whole? (style : Notation) (mantissa shift : Nat) : Option Nat :=
  let units := Binary.units mantissa shift
  let value := units / twoPow 1074
  if units % twoPow 1074 == 0 && value < style.wholeBelow then some value else none

def writeFloat (style : Notation) (x : Float) : String :=
  match Binary.ofFloat x with
  | .nan => style.nan
  | .infinite negative => if negative then "-" ++ style.infinity else style.infinity
  | .finite negative mantissa shift =>
    match whole? style mantissa shift with
    | some n => String.ofList ((if negative && n != 0 then ['-'] else []) ++ Nat.toDigits 10 n)
    | none =>
      String.ofList ((if negative then ['-'] else []) ++ writeMagnitude style mantissa shift)

/-- Numbers as they are exchanged with other programs: every digit that is needed to read them
back, and always a fraction or an exponent. -/
def exchange : Notation := ⟨"nan", "inf", 0, false⟩

end ClassScript.Decimal
