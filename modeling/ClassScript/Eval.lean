import ClassScript.Eval.Stmt

/-!
# Evaluation

The two evaluators call each other through one level at a time, with a budget that shrinks at every
level and bounds every loop. Running out of it is a result of its own, and a larger budget never
changes any other result.
-/

namespace ClassScript

mutual

def eval (env : Environment) : Nat → Expr → Run Value
  | 0, _ => Run.stop .exhausted
  | n + 1, e => evalStep env ⟨eval env n, exec env n, n⟩ e

def exec (env : Environment) : Nat → Stmt → Run Outcome
  | 0, _ => Run.stop .exhausted
  | n + 1, s => Run.atLine s.line (execStep env ⟨eval env n, exec env n, n⟩ s)

end

/-- The evaluators with budget `n`. -/
def evaluators (env : Environment) (n : Nat) : Evaluators :=
  ⟨eval env n, exec env n, n⟩

theorem eval_succ (env : Environment) (n : Nat) (e : Expr) :
    eval env (n + 1) e = evalStep env (evaluators env n) e := rfl

theorem exec_succ (env : Environment) (n : Nat) (s : Stmt) :
    exec env (n + 1) s = Run.atLine s.line (execStep env (evaluators env n) s) := rfl

/-- Runs the statements of a source. -/
def execProgram (env : Environment) (n : Nat) (p : Program) : Run Outcome := do
  match ← (evaluators env n).execAll p.statements with
  | .breaking | .continuing => Run.stop (.fault (.ofCause .loopControlAtTop))
  | outcome => return outcome

end ClassScript
