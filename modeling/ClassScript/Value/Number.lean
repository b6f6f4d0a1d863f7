import ClassScript.Decimal.Reading
import ClassScript.Fault
import ClassScript.Value.Text

/-!
# Values as numbers

Arithmetic takes `null` as zero, booleans as zero and one, and a text as the number it spells.
Nothing else is a number.
-/

namespace ClassScript

namespace Value

/-- The value as an operand of `operation`. -/
def toNumber (operation : String) : Value → Except Cause Float
  | null => .ok 0
  | boolean b => .ok (if b then 1 else 0)
  | number x => .ok x
  | text s =>
    match Decimal.readFloat? s with
    | some x => .ok x
    | none => .error (.textOperand s operation)
  | v => .error (.valueOperand v.toText operation)

end Value

end ClassScript
