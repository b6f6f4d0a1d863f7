import ClassScript.Eval.Expr
import ClassScript.Eval.Import

/-!
# Statements

A fault that does not know its line gets that of the innermost statement being executed. A
`finally` runs after every outcome of the code before it, a fault excepted, and an outcome of its
own that is not normal takes precedence.
-/

namespace ClassScript

/-- Assigns a field of an object; the value is evaluated before the target is examined. -/
def assignMember (k : Evaluators) (target : Expr) (member : String) (value : Expr) (line : Nat) :
    Run Unit := do
  let object ← k.eval target
  let v ← k.eval value
  match object with
  | .object self =>
    match ← Run.resolve self.classIndex member with
    | .found _ (.field ..) => Run.writeField self member v
    | _ => Run.faultAt (.undefinedMember self.className member) line
  | other => Run.faultAt (.assignmentOnNonObject other.toText member) line

def execSimple (env : Environment) (k : Evaluators) (s : Simple) : Run Unit :=
  Run.atLine s.line <|
    match s with
    | .assign name value _ => do
      let v ← k.eval value
      Run.assign env name v
    | .assignMember target member value line => assignMember k target member value line
    | .expr value _ => do
      let _ ← k.eval value

def evalCondition (k : Evaluators) (condition : Expr) : Run Bool := do
  return (← k.eval condition).isTruthy

/-- Repeats `body` and `after` while the condition holds, at most `bound` times. -/
def loop (condition : Run Bool) (body : Run Outcome) (after : Run Unit) : Nat → Run Outcome
  | 0 => Run.stop .exhausted
  | bound + 1 => do
    if ← condition then
      match ← body with
      | .breaking => return .normal
      | .returning v => return .returning v
      | .normal | .continuing =>
        after
        loop condition body after bound
    else return .normal

/-- How the debug log shows the call stack. -/
def showCalls (calls : List String) : String :=
  let labels := if calls.isEmpty then ["<top>"] else calls.reverse
  "[" ++ String.intercalate ", " (labels.map Text.quoted) ++ "]"

def throwValue (env : Environment) (v : Value) : Run Outcome := do
  let calls := (← get).frame.calls
  Run.debug env fun _ => "Throwing " ++ Text.quoted v.toText ++ " from " ++ showCalls calls
  Run.stop (.raised v calls)

/-- What the `catch` makes of the result of the body. -/
def handleRaised (env : Environment) (k : Evaluators) (handlers : Handlers)
    (result : Except (Value × List String) Outcome) :
    Run (Except (Value × List String) Outcome) := do
  match result, handlers.caught? with
  | .error (v, _), some (name, body) =>
    Run.debug env fun _ => "Caught " ++ Text.quoted v.toText ++ " into '" ++ name ++ "'"
    Run.assign env name v
    (k.execBlock body).attempt
  | _, _ => return result

def execTry (env : Environment) (k : Evaluators) (body : Block) (handlers : Handlers) :
    Run Outcome := do
  let first ← (k.execBlock body).attempt
  let result ← handleRaised env k handlers first
  match handlers.final? with
  | none => Run.resume result
  | some final =>
    match ← k.execBlock final with
    | .normal => Run.resume result
    | outcome => return outcome

/-- Executes a statement, given the evaluation of its parts. -/
def execStep (env : Environment) (k : Evaluators) : Stmt → Run Outcome
  | .simple s => do
    execSimple env k s
    return .normal
  | .print value _ => do
    let v ← k.eval value
    Run.write (v.toText ++ "\n")
    return .normal
  | .conditional condition thenBranch elseBranch _ => do
    if ← evalCondition k condition then k.execBlock thenBranch
    else
      match elseBranch with
      | some b => k.execBlock b
      | none => return .normal
  | .whileLoop condition body _ =>
    loop (evalCondition k condition) (k.execBlock body) (pure ()) k.bound
  | .forLoop initializer condition iterator body _ => do
    execSimple env k initializer
    loop (evalCondition k condition) (k.execBlock body) (execSimple env k iterator) k.bound
  | .breakLoop _ => return .breaking
  | .continueLoop _ => return .continuing
  | .function name params body _ => do
    modify fun c => { c with functions := c.functions.insert name ⟨params, body⟩ }
    return .normal
  | .returnValue none _ => return .returning .null
  | .returnValue (some e) _ => return .returning (← k.eval e)
  | .classDecl name base interfaces members line => do
    declareClass env name base interfaces members line
    return .normal
  | .interfaceDecl name methods _ => do
    modify fun c => { c with interfaces := c.interfaces.insert name methods }
    return .normal
  | .tryBlock body handlers _ => execTry env k body handlers
  | .throwValue value _ => do
    let v ← k.eval value
    throwValue env v
  | .importModule module line => importModule env k module line

end ClassScript
