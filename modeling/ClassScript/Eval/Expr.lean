import ClassScript.Eval.Object
import ClassScript.Operator

/-!
# Expressions

Operands and arguments are evaluated from left to right. `&&` and `||` evaluate their right operand
only when the left one does not decide, and give a boolean.
-/

namespace ClassScript

/-- A binary operator; the logical ones decide on the left operand first. -/
def evalBinary (k : Evaluators) (op : BinaryOp) (left right : Expr) : Run Value := do
  let a ← k.eval left
  match op with
  | .and =>
    if a.isTruthy then return .boolean (← k.eval right).isTruthy
    else return .boolean false
  | .or =>
    if a.isTruthy then return .boolean true
    else return .boolean (← k.eval right).isTruthy
  | _ =>
    let b ← k.eval right
    Run.ofExcept (op.apply a b)

/-- Evaluates an expression, given the evaluation of its parts. -/
def evalStep (env : Environment) (k : Evaluators) : Expr → Run Value
  | .number x _ => return .number x
  | .text s _ => return .text s
  | .boolean b _ => return .boolean b
  | .null _ => return .null
  | .var name line => Run.lookup name line
  | .unary op e _ => do
    let v ← k.eval e
    Run.ofExcept (op.apply v)
  | .binary op left right _ => evalBinary k op left right
  | .call name args line => callFunction env k name args line
  | .new className line => instantiate env k className line
  | .member target name line => do
    let v ← k.eval target
    readMember v name line
  | .methodCall target name args line => callMember env k target name args line
  | .superCall name args line => callSuper env k name args line

end ClassScript
