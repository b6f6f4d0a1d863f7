import ClassScript.Text.Blank
import ClassScript.Text.Digit

/-!
# Reading numbers

A number is an optional sign before digits with an optional point and an optional exponent, or one
of the words for infinity and not-a-number in any case. Digits may be of any script, a single
underscore may stand between two digits, and blanks around the number are ignored.
-/

namespace ClassScript.Decimal

/-- Digits of any script become ASCII digits; all else stays. -/
def plainDigit (c : Char) : Char :=
  match Text.digitValue? c with
  | some d => Char.ofNat (48 + d)
  | none => c

/-- Drops underscores that stand between two digits and refuses any other, `previous` being the
character before. -/
def dropUnderscores (previous : Char) : List Char → Option (List Char)
  | [] => if previous == '_' then none else some []
  | c :: cs =>
    if c == '_' then
      if previous.isDigit then dropUnderscores c cs else none
    else if previous == '_' && !c.isDigit then none
    else (dropUnderscores c cs).map (c :: ·)

/-- The value of a string of ASCII digits. -/
def digitsValue (cs : List Char) : Nat :=
  cs.foldl (fun n c => 10 * n + (c.toNat - 48)) 0

/-- Splits off a sign; a text without one is positive. -/
def takeSign : List Char → Bool × List Char
  | '-' :: cs => (true, cs)
  | '+' :: cs => (false, cs)
  | cs => (false, cs)

/-- The exponent after the digits, which takes all that is left. -/
def readExponent? : List Char → Option Int
  | [] => some 0
  | c :: cs =>
    if c == 'e' || c == 'E' then
      let (negative, digits) := takeSign cs
      if digits.isEmpty || !digits.all Char.isDigit then none
      else some (if negative then - (digitsValue digits : Int) else digitsValue digits)
    else none

/-- The number nearest to `digits * 10 ^ power`; far outside the range of finite numbers it is known
without computing. -/
def scale (digits : Nat) (power : Int) : Float :=
  let magnitude := (Nat.toDigits 10 digits).length + power
  if digits == 0 then 0
  else if 310 < magnitude then 1 / 0
  else if magnitude < -330 then 0
  else Float.ofScientific digits (power < 0) power.natAbs

/-- An unsigned decimal: digits on at least one side of the point. -/
def readMagnitude? (cs : List Char) : Option Float :=
  let whole := cs.takeWhile Char.isDigit
  let afterWhole := cs.dropWhile Char.isDigit
  let (fraction, rest) := match afterWhole with
    | '.' :: ds => (ds.takeWhile Char.isDigit, ds.dropWhile Char.isDigit)
    | _ => ([], afterWhole)
  if whole.isEmpty && fraction.isEmpty then none
  else (readExponent? rest).map fun exponent =>
    scale (digitsValue (whole ++ fraction)) (exponent - fraction.length)

/-- A word for a value that has no digits. -/
def readWord? (cs : List Char) : Option Float :=
  let word := cs.map Char.toLower
  if word == "inf".toList || word == "infinity".toList then some (1 / 0)
  else if word == "nan".toList then some (0 / 0)
  else none

def readFloat? (s : String) : Option Float :=
  (dropUnderscores ' ' ((Text.trimBlanks s.toList).map plainDigit)).bind fun cs =>
    let (negative, rest) := takeSign cs
    ((readWord? rest).or (readMagnitude? rest)).map fun x => if negative then -x else x

end ClassScript.Decimal
