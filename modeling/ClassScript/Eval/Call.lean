import ClassScript.Builtin
import ClassScript.Eval.Evaluators

/-!
# Calls

A call runs its body in a fresh scope. Its label is on the call stack while the body runs, a fault
that leaves the body notes the stack, and `break` or `continue` must not leave it.
-/

namespace ClassScript

/-- The object a method runs on and the class that owns the method. -/
structure Receiver where
  self : Instance
  owner : Nat

/-- Stops when one more call or instantiation would nest too deep. -/
def checkDepth (env : Environment) : Run Unit := do
  let frame := (← get).frame
  if env.callDepth ≤ frame.depth then
    Run.stop (.overflow frame.calls)

/-- The scope a body starts with: its parameters, then `this`. -/
def callScope (params : List String) (args : List Value) (receiver : Option Receiver) : Scope :=
  let scope := Bindings.ofList (params.zip args)
  match receiver with
  | none => scope
  | some r => scope.insert "this" (.object r.self)

/-- The frame of a call made from `frame`. -/
def Frame.calling (frame : Frame) (label : String) (scope : Scope) (receiver : Option Receiver) :
    Frame :=
  { frame with
    scope := some scope
    self := receiver.map Receiver.self
    owner := receiver.map Receiver.owner
    calls := label :: frame.calls
    depth := frame.depth + 1 }

/-- The way out of a call: its label goes. -/
def Frame.leavingCall (frame : Frame) : Frame :=
  { frame with calls := frame.calls.tail, depth := frame.depth - 1 }

/-- Runs a body and answers what it returns. -/
def runBody (k : Evaluators) (label : String) (body : Block) (line : Nat) : Run Value := do
  match ← k.execBlock body with
  | .normal => return .null
  | .returning v => return v
  | .breaking | .continuing => Run.faultAt (.loopControlInCall label) line

/-- Calls a function or method with evaluated arguments. -/
def invoke (env : Environment) (k : Evaluators) (label : String) (f : Function) (args : List Value)
    (receiver : Option Receiver) (line : Nat) : Run Value := do
  Run.refuseIf (f.params.length != args.length)
    (.argumentCount label f.params.length args.length) line
  checkDepth env
  let scope := callScope f.params args receiver
  Run.inFrame (fun frame => frame.calling label scope receiver) Frame.leavingCall <|
    Run.tracing (runBody k label f.body line)

/-- Calls a built-in or a function by name; built-ins come first. -/
def callFunction (env : Environment) (k : Evaluators) (name : String) (args : List Expr)
    (line : Nat) : Run Value := do
  match Builtin.ofName? name with
  | some b =>
    let values ← k.evalAll args
    b.call name values line
  | none =>
    match (← get).functions.get? name with
    | none => Run.faultAt (.undefinedFunction name) line
    | some f =>
      let values ← k.evalAll args
      invoke env k name f values none line

/-- Reads a member of an object: the value of a field, or a bound method. -/
def readMember (target : Value) (name : String) (line : Nat) : Run Value := do
  match target with
  | .object self =>
    match ← Run.resolve self.classIndex name with
    | .notFound => Run.faultAt (.undefinedMember self.className name) line
    | .found _ (.field ..) => Run.readField self name
    | .found _ (.method ..) => return .method (← Run.freshId) self name
  | v => Run.faultAt (.accessOnNonObject v.toText name) line

/-- Calls a bound method with evaluated arguments. -/
def callMethod (env : Environment) (k : Evaluators) (self : Instance) (name : String)
    (args : List Value) (line : Nat) : Run Value := do
  match ← Run.resolve self.classIndex name with
  | .found owner (.method _ _ params body _ _ _) =>
    Run.debug env fun _ =>
      "Calling method '" ++ name ++ "' on object of class '" ++ self.className ++ "' with " ++
        toString args.length ++ " args"
    invoke env k name ⟨params, body⟩ args (some ⟨self, owner⟩) line
  | _ => Run.faultAt (.undefinedMember self.className name) line

/-- Evaluates `target.name(args)`: the member is read before the arguments are evaluated. -/
def callMember (env : Environment) (k : Evaluators) (target : Expr) (name : String)
    (args : List Expr) (line : Nat) : Run Value := do
  let object ← k.eval target
  match ← readMember object name line with
  | .method _ self method =>
    let values ← k.evalAll args
    callMethod env k self method values line
  | v => Run.faultAt (.notAMethod v.toText) line

/-- Evaluates `super.name(args)`: the search starts at the base of the class that owns the running
code. -/
def callSuper (env : Environment) (k : Evaluators) (name : String) (args : List Expr) (line : Nat) :
    Run Value := do
  let frame := (← get).frame
  match frame.self, frame.owner with
  | some self, some owner =>
    let current ← Run.classAt owner
    match current.base with
    | none => Run.faultAt (.noBaseClass current.name) line
    | some base =>
      match (← get).classes.findMethod? (some base) name with
      | none => Run.stop .badIndex
      | some (.found methodOwner (.method _ _ params body _ _ _)) =>
        let values ← k.evalAll args
        invoke env k ("super." ++ name) ⟨params, body⟩ values (some ⟨self, methodOwner⟩) line
      | some _ =>
        let baseClass ← Run.classAt base
        Run.faultAt (.undefinedMember baseClass.name name) line
  | _, _ => Run.faultAt .superOutsideMethod line

end ClassScript
