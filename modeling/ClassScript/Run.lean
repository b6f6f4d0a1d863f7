import ClassScript.Context
import ClassScript.Grammar

/-!
# Running code

A computation reads and changes the context and may stop before it has a result; the context it has
reached then is kept. `inFrame` is the only way to another frame and back, however the computation
ends. That the frame is then the old one takes a proof about the code that has run in between, since
there is one call stack and one import stack for all code.
-/

namespace ClassScript

/-- Why code stopped without a result. -/
inductive Stop where
  /-- A thrown value on its way to a `catch`, with the calls active at the `throw`. -/
  | raised (value : Value) (trace : List String)
  | fault (fault : Fault)
  /-- An imported module has no tree. -/
  | malformed (error : SourceError)
  /-- Calls, instantiations or syntax nest too deep; with the active calls. -/
  | overflow (calls : List String)
  /-- A class index leads out of the class table. -/
  | badIndex
  /-- The step budget is used up. -/
  | exhausted

namespace Stop

/-- A fault without a line gets this one. -/
def withLine (line : Nat) : Stop → Stop
  | fault f => .fault (f.withLine line)
  | s => s

/-- A fault without a trace gets this one. -/
def withTrace (calls : List String) : Stop → Stop
  | fault f => .fault (f.withTrace calls)
  | s => s

end Stop

/-- How a statement ends. -/
inductive Outcome where
  | normal
  | returning (value : Value)
  | breaking
  | continuing
  deriving Inhabited

abbrev Run := ExceptT Stop (StateM Context)

namespace Run

variable {α β : Type}

@[simp] theorem pure_apply (a : α) (c : Context) : (pure a : Run α) c = (.ok a, c) := rfl

@[simp] theorem get_apply (c : Context) : (MonadState.get : Run Context) c = (.ok c, c) := rfl

@[simp] theorem modify_apply (f : Context → Context) (c : Context) :
    (modify f : Run PUnit) c = (.ok ⟨⟩, f c) := rfl

@[simp] theorem set_apply (c' c : Context) : (set c' : Run PUnit) c = (.ok ⟨⟩, c') := rfl

theorem bind_apply (x : Run α) (f : α → Run β) (c : Context) :
    (x >>= f) c = match x c with
      | (.ok a, c') => f a c'
      | (.error s, c') => (.error s, c') := by
  change (match x c with | (r, c') => ExceptT.bindCont f r c') = _
  rcases x c with ⟨r, c'⟩
  cases r <;> rfl

def stop (s : Stop) : Run α :=
  throw s

@[simp] theorem stop_apply (s : Stop) (c : Context) : (stop s : Run α) c = (.error s, c) := rfl

/-- A fault at a line of its own. -/
def faultAt (cause : Cause) (line : Nat) : Run α :=
  stop (.fault (.onLine cause line))

/-- A fault at a line of its own when the condition holds. -/
def refuseIf (condition : Bool) (cause : Cause) (line : Nat) : Run Unit :=
  if condition then faultAt cause line else pure ()

/-- The result of a pure operation, whose failure takes its line from the running statement. -/
def ofExcept : Except Cause α → Run α
  | .ok a => pure a
  | .error cause => stop (.fault (.ofCause cause))

/-- The result of a pure operation, whose failure is reported at `line`. -/
def ofExceptAt (line : Nat) : Except Cause α → Run α
  | .ok a => pure a
  | .error cause => faultAt cause line

/-- Changes the way a computation stops. -/
def mapStop (f : Stop → Stop) (x : Run α) : Run α :=
  fun c =>
    match x c with
    | (.ok a, c') => (.ok a, c')
    | (.error s, c') => (.error (f s), c')

theorem mapStop_eq (g : Stop → Stop) (x : Run α) :
    x.mapStop g = fun c => ((x c).1.mapError g, (x c).2) := by
  funext c
  rw [mapStop]
  rcases x c with ⟨_ | _, c'⟩ <;> rfl

/-- Faults that leave `x` without a line get this one. -/
def atLine (line : Nat) (x : Run α) : Run α :=
  x.mapStop (Stop.withLine line)

/-- A fault that leaves `x` notes the calls that are active then, unless an inner call has done
so. -/
def tracing (x : Run α) : Run α :=
  fun c =>
    match x c with
    | (.ok a, c') => (.ok a, c')
    | (.error s, c') => (.error (s.withTrace c'.frame.calls), c')

theorem tracing_eq (x : Run α) :
    x.tracing = fun c => ((x c).1.mapError (Stop.withTrace (x c).2.frame.calls), (x c).2) := by
  funext c
  rw [tracing]
  rcases x c with ⟨_ | _, c'⟩ <;> rfl

/-- Runs `x` in the frame that `enter` makes of the present one. On every exit scope, object and
owner are put back, and `leave` takes from the stacks of the frame that `x` ends in what `enter` has
put on them. -/
def inFrame (enter leave : Frame → Frame) (x : Run α) : Run α :=
  fun c =>
    match x { c with frame := enter c.frame } with
    | (r, c') => (r, { c' with frame := (leave c'.frame).resuming c.frame })

theorem inFrame_apply (enter leave : Frame → Frame) (x : Run α) (c : Context) :
    inFrame enter leave x c = ((x { c with frame := enter c.frame }).1,
      { (x { c with frame := enter c.frame }).2 with
        frame := (leave (x { c with frame := enter c.frame }).2.frame).resuming c.frame }) := rfl

/-- Turns a thrown value into a result. -/
def attempt (x : Run α) : Run (Except (Value × List String) α) :=
  fun c =>
    match x c with
    | (.ok a, c') => (.ok (.ok a), c')
    | (.error (.raised v trace), c') => (.ok (.error (v, trace)), c')
    | (.error s, c') => (.error s, c')

/-- What `attempt` makes of a result. -/
def caught : Except Stop α → Except Stop (Except (Value × List String) α)
  | .ok a => .ok (.ok a)
  | .error (.raised v trace) => .ok (.error (v, trace))
  | .error stop => .error stop

theorem attempt_eq (x : Run α) : x.attempt = fun c => (caught (x c).1, (x c).2) := by
  funext c
  rw [attempt]
  rcases x c with ⟨(_ | _ | _ | _ | _ | _) | _, c'⟩ <;> rfl

/-- Throws again what `attempt` has caught. -/
def resume : Except (Value × List String) α → Run α
  | .ok a => pure a
  | .error (v, trace) => stop (.raised v trace)

def write (text : String) : Run Unit :=
  modify fun c => { c with output := c.output ++ text }

/-- The next line of the input without its end; none when the input is used up. -/
def readLine : Run (Option String) := do
  let c ← get
  match Text.nextLine? c.input with
  | none => return none
  | some (line, rest) =>
    set { c with input := rest }
    return some (String.ofList (Text.chompLine line))

/-- A line of the debug log, if there is one. -/
def debug (env : Environment) (line : Unit → String) : Run Unit :=
  if env.debug then modify fun c => { c with log := line () :: c.log } else pure ()

theorem debug_apply (env : Environment) (line : Unit → String) (c : Context) :
    ∃ log, debug env line c = (.ok ⟨⟩, { c with log }) := by
  cases hd : env.debug <;> simp only [debug, hd]
  · exact ⟨c.log, rfl⟩
  · exact ⟨line () :: c.log, rfl⟩

/-- The identity of a new list or bound method. -/
def freshId : Run Nat :=
  modifyGet fun c => (c.nextId, { c with nextId := c.nextId + 1 })

/-- A new object without fields. -/
def allocate (classIndex : Nat) (className : String) : Run Instance :=
  modifyGet fun c =>
    (⟨c.heap.size, classIndex, className⟩, { c with heap := c.heap.push {} })

def writeField (self : Instance) (name : String) (value : Value) : Run Unit :=
  modify fun c => { c with heap := c.heap.modify self.id fun fields => fields.insert name value }

/-- The value of a field; one that has not been assigned yet is `null`. -/
def readField (self : Instance) (name : String) : Run Value := do
  return ((← get).fieldsOf self).get? name |>.getD .null

/-- Binds a variable, locally inside a call and globally outside of every call. -/
def assign (env : Environment) (name : String) (value : Value) : Run Unit := do
  let c ← get
  match c.frame.scope with
  | some scope =>
    debug env fun _ => "Assigning local variable: " ++ name
    modify fun c => { c with frame := { c.frame with scope := some (scope.insert name value) } }
  | none =>
    debug env fun _ => "Assigning global variable: " ++ name
    modify fun c => { c with globals := c.globals.insert name value }

/-- The value of a variable, local before global. -/
def lookup (name : String) (line : Nat) : Run Value := do
  let c ← get
  match (c.frame.scope.bind (·.get? name)).or (c.globals.get? name) with
  | some v => return v
  | none => faultAt (.undefinedVariable name) line

/-- What a member name means on a class. -/
def resolve (classIndex : Nat) (name : String) : Run Resolution := do
  let c ← get
  match c.classes.resolve? classIndex name with
  | none => stop .badIndex
  | some (r, classes) =>
    set { c with classes }
    return r

/-- The classes from the given one to its root. -/
def chain (classIndex : Nat) : Run (List Nat) := do
  match (← get).classes.chain? classIndex with
  | none => stop .badIndex
  | some indices => return indices

def classAt (classIndex : Nat) : Run ClassDef := do
  match (← get).classes.classes[classIndex]? with
  | none => stop .badIndex
  | some c => return c

end Run

end ClassScript
