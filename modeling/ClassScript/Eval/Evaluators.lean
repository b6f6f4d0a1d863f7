import ClassScript.Run

/-!
# One level of evaluation

Evaluation is written one level at a time: each rule gets the evaluation of what lies below it as
an argument, together with a bound on the repetitions of a loop.
-/

namespace ClassScript

structure Evaluators where
  eval : Expr → Run Value
  exec : Stmt → Run Outcome
  bound : Nat

namespace Evaluators

/-- Arguments from left to right. -/
def evalAll (k : Evaluators) : List Expr → Run (List Value)
  | [] => return []
  | e :: es => do
    let v ← k.eval e
    return v :: (← evalAll k es)

/-- Statements in order, up to the first that does not end normally. -/
def execAll (k : Evaluators) : List Stmt → Run Outcome
  | [] => return .normal
  | s :: ss => do
    match ← k.exec s with
    | .normal => execAll k ss
    | outcome => return outcome

def execBlock (k : Evaluators) (b : Block) : Run Outcome :=
  k.execAll b.statements

end Evaluators

end ClassScript
