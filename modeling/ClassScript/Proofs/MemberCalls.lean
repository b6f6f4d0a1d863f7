import ClassScript.Eval
import ClassScript.Proofs.Dispatch

/-!
# Reading and calling a member whose meaning is known

Once it is known what a name means on the class of an object, reading the member and calling it take
one branch each. What is left of a call after its checks is `enterBody`.
-/

namespace ClassScript

theorem Run.resolve_apply {i : Nat} {name : String} {c : Context} {r : Resolution} {u : ClassTable}
    (h : c.classes.resolve? i name = some (r, u)) :
    Run.resolve i name c = (.ok r, { c with classes := u }) := by
  simp only [Run.resolve, bind_apply, get_apply, h, set_apply, pure_apply]

/-- A call once its arguments have been counted: the body runs in a frame of its own. -/
def enterBody (env : Environment) (k : Evaluators) (label : String) (f : Function)
    (args : List Value) (receiver : Option Receiver) (line : Nat) : Run Value := do
  checkDepth env
  let scope := callScope f.params args receiver
  Run.inFrame (fun frame => frame.calling label scope receiver) Frame.leavingCall <|
    Run.tracing (runBody k label f.body line)

theorem invoke_of_arity {f : Function} {args : List Value} (h : f.params.length = args.length)
    (env : Environment) (k : Evaluators) (label : String) (receiver : Option Receiver)
    (line : Nat) :
    invoke env k label f args receiver line = enterBody env k label f args receiver line := by
  rw [invoke, h, bne_self_eq_false]
  rfl

/-- What a method call notes in the log before it starts. -/
def noteCall (env : Environment) (self : Instance) (name : String) (args : List Value) : Run Unit :=
  Run.debug env fun _ =>
    "Calling method '" ++ name ++ "' on object of class '" ++ self.className ++ "' with " ++
      toString args.length ++ " args"

section

variable {self : Instance} {name : String} {c : Context} {owner : Nat} {u : ClassTable}

/-- A method is read as a bound method. -/
theorem readMember_of_method {m : Member} (hm : m.isMethod = true)
    (h : c.classes.resolve? self.classIndex name = some (.found owner m, u)) (line : Nat) :
    readMember (.object self) name line c =
      (.ok (.method c.nextId self name), { c with classes := u, nextId := c.nextId + 1 }) := by
  cases m with
  | field => cases hm
  | method =>
    simp only [readMember, Run.bind_apply, Run.resolve_apply h]
    rfl

/-- A field that has a value is read as that value. -/
theorem readMember_of_field {m : Member} {v : Value} (hm : m.isField = true)
    (h : c.classes.resolve? self.classIndex name = some (.found owner m, u))
    (hv : (c.fieldsOf self).get? name = some v) (line : Nat) :
    readMember (.object self) name line c = (.ok v, { c with classes := u }) := by
  cases m with
  | method => cases hm
  | field =>
    simp only [readMember, Run.bind_apply, Run.resolve_apply h, Run.readField, Run.get_apply,
      Run.pure_apply]
    have hv' : (Context.fieldsOf { c with classes := u } self).get? name = some v := hv
    rw [hv']
    rfl

/-- A call of a bound method whose name means a method goes on to the call itself. -/
theorem callMethod_of_method {m : Member} (hm : m.isMethod = true)
    (h : c.classes.resolve? self.classIndex name = some (.found owner m, u)) :
    ∃ f : Function, f.params.length = m.arity ∧ ∀ env k args line,
      callMethod env k self name args line c =
        (do noteCall env self name args
            invoke env k name f args (some ⟨self, owner⟩) line) { c with classes := u } := by
  cases m with
  | field => cases hm
  | method x a params body v o l =>
    refine ⟨⟨params, body⟩, rfl, fun env k args line => ?_⟩
    simp only [callMethod, Run.bind_apply, Run.resolve_apply h]
    rfl

end

end ClassScript
