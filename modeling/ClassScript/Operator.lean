import ClassScript.Decimal.Remainder
import ClassScript.Syntax
import ClassScript.Value.Number

/-!
# Operators

`+` joins texts when either operand is one. Equality compares texts as texts, references by
identity, `null` with `null` only, and all else as numbers. Every other operator works on numbers,
with the arithmetic of IEEE 754.
-/

namespace ClassScript

namespace Value

def isText : Value → Bool
  | text _ => true
  | _ => false

def equals (left right : Value) : Except Cause Bool :=
  match left, right with
  | text a, text b => .ok (a == b)
  | _, _ =>
    if left.isReference || right.isReference then .ok (left.isSameReference right)
    else if left.isNull || right.isNull then .ok (left.isNull && right.isNull)
    else do
      let a ← left.toNumber "=="
      let b ← right.toNumber "=="
      return a == b

end Value

/-- Both operands as numbers, the left one first. -/
def numericOperands (operation : String) (left right : Value) : Except Cause (Float × Float) := do
  let a ← left.toNumber operation
  let b ← right.toNumber operation
  return (a, b)

/-- A binary operator on numbers; the logical operators are no such operators. -/
def BinaryOp.onNumbers (op : BinaryOp) (a b : Float) : Except Cause Value :=
  match op with
  | .add => .ok (.number (a + b))
  | .sub => .ok (.number (a - b))
  | .mul => .ok (.number (a * b))
  | .div => .ok (.number (a / b))
  | .mod => .ok (.number (Decimal.remainder a b))
  | .lt => .ok (.boolean (a < b))
  | .gt => .ok (.boolean (b < a))
  | .le => .ok (.boolean (a ≤ b))
  | .ge => .ok (.boolean (b ≤ a))
  | .eq => .ok (.boolean (a == b))
  | .ne => .ok (.boolean (a != b))
  | .and | .or => .error (.unknownOperator op.symbol)

/-- Applies a binary operator to two evaluated operands. -/
def BinaryOp.apply (op : BinaryOp) (left right : Value) : Except Cause Value :=
  match op with
  | .eq => return .boolean (← left.equals right)
  | .ne => return .boolean (! (← left.equals right))
  | _ =>
    if op = .add ∧ (left.isText || right.isText) = true then
      .ok (.text (left.toText ++ right.toText))
    else do
      let (a, b) ← numericOperands op.symbol left right
      op.onNumbers a b

/-- Applies the operator a symbol stands for; one that stands for none still wants numbers. -/
def applySymbol (symbol : String) (left right : Value) : Except Cause Value :=
  match BinaryOp.ofSymbol? symbol with
  | some op => op.apply left right
  | none => do
    let _ ← numericOperands symbol left right
    .error (.unknownOperator symbol)

/-- Applies a prefix operator. -/
def UnaryOp.apply (op : UnaryOp) (operand : Value) : Except Cause Value :=
  match op with
  | .minus => return .number (- (← operand.toNumber "unary -"))
  | .plus => return .number (← operand.toNumber "unary +")
  | .not => .ok (.boolean (!operand.isTruthy))

end ClassScript
