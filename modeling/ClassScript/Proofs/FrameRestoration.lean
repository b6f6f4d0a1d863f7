import ClassScript.Eval

/-!
# Frames are restored on every exit

A call, an instantiation and an import each run code in a frame of their own. However that code
ends, the frame that was active before is active again. Evaluating an expression leaves the frame
exactly as it was; executing a statement may assign local variables, and only those that the
statement itself names.

Scope, object and owner are put back from what has been saved. The call stack and the import stack
are shared with the code inside, and the way out pops one entry off what that code leaves behind. So
it is by induction over the runs nested in a run that every stack is balanced: the code inside
leaves the stacks as it has found them, and what is popped then is what has been pushed.

Nothing is assumed about the context, the files or the step budget, so running out of steps is one
of the exits.
-/

namespace ClassScript

def Simple.assigned : Simple → List String
  | .assign name _ _ => [name]
  | .assignMember .. | .expr .. => []

mutual

/-- The variables that a statement assigns in the scope it runs in. Bodies of functions and methods
and imported modules run in other scopes. -/
def Stmt.assigned : Stmt → List String
  | .simple s => s.assigned
  | .conditional _ thenBranch none _ => thenBranch.assigned
  | .conditional _ thenBranch (some elseBranch) _ => thenBranch.assigned ++ elseBranch.assigned
  | .whileLoop _ body _ => body.assigned
  | .forLoop initializer _ iterator body _ =>
    initializer.assigned ++ (iterator.assigned ++ body.assigned)
  | .tryBlock body handlers _ => body.assigned ++ handlers.assigned
  | .print .. | .breakLoop .. | .continueLoop .. | .function .. | .returnValue .. | .classDecl ..
  | .interfaceDecl .. | .throwValue .. | .importModule .. => []

def Stmt.assignedAll : List Stmt → List String
  | [] => []
  | s :: ss => s.assigned ++ Stmt.assignedAll ss

def Block.assigned : Block → List String
  | .mk statements _ => Stmt.assignedAll statements

def Handlers.assigned : Handlers → List String
  | .catchOnly name body => name :: body.assigned
  | .finallyOnly body => body.assigned
  | .catchFinally name caught final => name :: (caught.assigned ++ final.assigned)

end

namespace Frame

/-- The frame after assignments to local variables; outside of every call there are none. -/
def binding (f : Frame) (writes : List (String × Value)) : Frame :=
  { f with scope := f.scope.map fun scope => writes.foldl (fun s w => s.insert w.1 w.2) scope }

/-- `g` is the frame `f`, in whose scope nothing but variables among `names` has been assigned. -/
def Continues (names : List String) (f g : Frame) : Prop :=
  ∃ writes : List (String × Value), (∀ w ∈ writes, w.1 ∈ names) ∧ g = f.binding writes

theorem binding_nil (f : Frame) : f.binding [] = f := by
  obtain ⟨scope, self, owner, calls, imports, depth⟩ := f
  cases scope <;> rfl

theorem binding_binding (f : Frame) (first second : List (String × Value)) :
    (f.binding first).binding second = f.binding (first ++ second) := by
  obtain ⟨scope, self, owner, calls, imports, depth⟩ := f
  cases scope with
  | none => rfl
  | some scope => simp only [binding, Option.map_some, List.foldl_append]

namespace Continues

theorem refl (names : List String) (f : Frame) : Continues names f f :=
  ⟨[], by simp, f.binding_nil.symm⟩

theorem trans {names : List String} {f g h : Frame} (first : Continues names f g)
    (second : Continues names g h) : Continues names f h := by
  obtain ⟨ws, hws, rfl⟩ := first
  obtain ⟨vs, hvs, rfl⟩ := second
  refine ⟨ws ++ vs, ?_, f.binding_binding ws vs⟩
  intro w hw
  rcases List.mem_append.mp hw with hw | hw
  · exact hws w hw
  · exact hvs w hw

theorem mono {names more : List String} {f g : Frame} (sub : names ⊆ more)
    (h : Continues names f g) : Continues more f g := by
  obtain ⟨ws, hws, rfl⟩ := h
  exact ⟨ws, fun w hw => sub (hws w hw), rfl⟩

/-- Where no variable may be assigned, the frame is the same. -/
theorem eq {f g : Frame} (h : Continues [] f g) : g = f := by
  obtain ⟨ws, hws, rfl⟩ := h
  have hnil : ws = [] := List.eq_nil_iff_forall_not_mem.mpr fun w hw => by cases hws w hw
  rw [hnil, binding_nil]

end Continues

/-- The call stack, the import stack and the depth are the same. -/
structure SameStacks (f g : Frame) : Prop where
  calls : g.calls = f.calls
  imports : g.imports = f.imports
  depth : g.depth = f.depth

namespace SameStacks

variable {f g h : Frame}

theorem trans (first : f.SameStacks g) (second : g.SameStacks h) : f.SameStacks h :=
  ⟨second.calls.trans first.calls, second.imports.trans first.imports,
    second.depth.trans first.depth⟩

/-- With the stacks balanced, to put scope, object and owner back is to put the frame back. -/
theorem resuming (same : f.SameStacks g) : g.resuming f = f := by
  obtain ⟨calls, imports, depth⟩ := same
  rw [Frame.resuming, calls, imports, depth]

/-- The label that is popped is the one that has been pushed. -/
theorem leavingCall {label : String} {scope : Scope} {receiver : Option Receiver}
    (same : (f.calling label scope receiver).SameStacks g) : f.SameStacks g.leavingCall :=
  ⟨congrArg List.tail same.calls, same.imports, congrArg (· - 1) same.depth⟩

theorem leavingObject {self : Instance} (same : (f.initializing self).SameStacks g) :
    f.SameStacks g.leavingObject :=
  ⟨same.calls, same.imports, congrArg (· - 1) same.depth⟩

/-- The module that is popped is the one that has been pushed. -/
theorem leavingImport {m : ModuleRef} (same : (f.importing m).SameStacks g) :
    f.SameStacks g.leavingImport :=
  ⟨same.calls, congrArg List.tail same.imports, same.depth⟩

end SameStacks

theorem Continues.sameStacks {names : List String} {f g : Frame} (h : Continues names f g) :
    f.SameStacks g := by
  obtain ⟨ws, -, rfl⟩ := h
  exact ⟨rfl, rfl, rfl⟩

end Frame

namespace Run

variable {α β : Type}

/-- However `x` ends, the frame continues, with no variable assigned but those among `names`. -/
def Keeps (names : List String) (x : Run α) : Prop :=
  ∀ c, Frame.Continues names c.frame (x c).2.frame

namespace Keeps

variable {names : List String}

/-- A computation that does not touch the frame. -/
theorem of_frame_eq {x : Run α} (h : ∀ c, (x c).2.frame = c.frame) : Keeps names x := by
  intro c
  rw [h c]
  exact .refl names c.frame

theorem mono {more : List String} {x : Run α} (sub : names ⊆ more) (hx : Keeps names x) :
    Keeps more x :=
  fun c => (hx c).mono sub

theorem of_nil {x : Run α} (hx : Keeps [] x) : Keeps names x :=
  hx.mono (List.nil_subset names)

theorem pure (a : α) : Keeps names (Pure.pure a : Run α) :=
  of_frame_eq fun _ => rfl

theorem stop (s : Stop) : Keeps names (Run.stop s : Run α) :=
  of_frame_eq fun _ => rfl

theorem get : Keeps names (MonadState.get : Run Context) :=
  of_frame_eq fun _ => rfl

theorem bind {x : Run α} {f : α → Run β} (hx : Keeps names x) (hf : ∀ a, Keeps names (f a)) :
    Keeps names (x >>= f) := by
  intro c
  have first := hx c
  rw [bind_apply]
  rcases hr : x c with ⟨r, c'⟩
  rw [hr] at first
  cases r with
  | error s => exact first
  | ok a => exact first.trans (hf a c')

theorem mapStop {x : Run α} (g : Stop → Stop) (hx : Keeps names x) :
    Keeps names (x.mapStop g) := by
  rw [mapStop_eq]
  exact hx

theorem attempt {x : Run α} (hx : Keeps names x) : Keeps names x.attempt := by
  rw [attempt_eq]
  exact hx

theorem tracing {x : Run α} (hx : Keeps names x) : Keeps names x.tracing := by
  rw [tracing_eq]
  exact hx

theorem ofExcept (r : Except Cause α) : Keeps names (Run.ofExcept r) := by
  cases r with
  | ok a => exact pure a
  | error cause => exact stop _

theorem ofExceptAt (line : Nat) (r : Except Cause α) : Keeps names (Run.ofExceptAt line r) := by
  cases r with
  | ok a => exact pure a
  | error cause => exact stop _

theorem faultAt (cause : Cause) (line : Nat) : Keeps names (Run.faultAt cause line : Run α) :=
  stop _

theorem refuseIf (condition : Bool) (cause : Cause) (line : Nat) :
    Keeps names (Run.refuseIf condition cause line) := by
  rw [Run.refuseIf]
  split
  · exact faultAt _ _
  · exact pure ()

theorem debug (env : Environment) (line : Unit → String) : Keeps names (Run.debug env line) := by
  rw [Run.debug]
  split
  · exact of_frame_eq fun _ => rfl
  · exact pure ()

theorem forM {γ : Type} {f : γ → Run PUnit} (hf : ∀ a, Keeps names (f a)) (l : List γ) :
    Keeps names (l.forM f) := by
  induction l with
  | nil => exact pure _
  | cons a l ih => exact (hf a).bind fun _ => ih

/-- The only way to change the scope of the present frame. -/
theorem assign (env : Environment) {name : String} (value : Value) (h : name ∈ names) :
    Keeps names (Run.assign env name value) := by
  intro c
  cases hs : c.frame.scope with
  | none =>
    have same : (Run.assign env name value c).2.frame = c.frame := by
      cases hd : env.debug <;> simp [Run.assign, Run.debug, bind_apply, hs, hd]
    rw [same]
    exact .refl names c.frame
  | some scope =>
    refine ⟨[(name, value)], by simpa using h, ?_⟩
    cases hd : env.debug <;> simp [Run.assign, Run.debug, bind_apply, hs, hd, Frame.binding]

theorem resume (r : Except (Value × List String) α) : Keeps names (Run.resume r) := by
  cases r with
  | ok a => exact pure a
  | error e => exact stop _

theorem lookup (name : String) (line : Nat) : Keeps names (Run.lookup name line) := by
  rw [Run.lookup]
  refine get.bind fun c => ?_
  split
  · exact pure _
  · exact faultAt _ _

theorem resolve (classIndex : Nat) (name : String) : Keeps names (Run.resolve classIndex name) := by
  refine of_frame_eq fun c => ?_
  cases hr : c.classes.resolve? classIndex name <;>
    simp only [Run.resolve, bind_apply, get_apply, set_apply, pure_apply, stop_apply, hr]

theorem readLine : Keeps names Run.readLine := by
  refine of_frame_eq fun c => ?_
  cases hl : Text.nextLine? c.input <;>
    simp only [Run.readLine, bind_apply, get_apply, set_apply, pure_apply, hl]

theorem chain (classIndex : Nat) : Keeps names (Run.chain classIndex) := by
  rw [Run.chain]
  refine get.bind fun c => ?_
  split
  · exact stop _
  · exact pure _

theorem classAt (classIndex : Nat) : Keeps names (Run.classAt classIndex) := by
  rw [Run.classAt]
  refine get.bind fun c => ?_
  split
  · exact stop _
  · exact pure _

end Keeps

/-- However `x` ends, whatever it has pushed it has popped, and no more. -/
def Balances (x : Run α) : Prop :=
  ∀ c : Context, c.frame.SameStacks (x c).2.frame

theorem Keeps.balances {names : List String} {x : Run α} (hx : Keeps names x) : Balances x :=
  fun c => (hx c).sameStacks

namespace Balances

theorem bind {x : Run α} {f : α → Run β} (hx : Balances x) (hf : ∀ a, Balances (f a)) :
    Balances (x >>= f) := by
  intro c
  have first := hx c
  rw [bind_apply]
  rcases hr : x c with ⟨r, c'⟩
  rw [hr] at first
  cases r with
  | error s => exact first
  | ok a => exact first.trans (hf a c')

/-- Where the way out takes off the stacks what the way in has put on them, balanced code cannot
touch the frame outside. -/
theorem inFrame {enter leave : Frame → Frame}
    (undoes : ∀ f g, (enter f).SameStacks g → f.SameStacks (leave g)) {x : Run α}
    (hx : Balances x) : Keeps [] (Run.inFrame enter leave x) := by
  refine Keeps.of_frame_eq fun c => ?_
  have inside := hx { c with frame := enter c.frame }
  exact (undoes c.frame _ inside).resuming

end Balances

end Run

namespace Builtin

open Run

theorem keeps_classNamed (v : Value) : Keeps [] (classNamed v) := by
  rw [classNamed]
  refine Keeps.get.bind fun c => ?_
  split
  · exact .pure _
  · exact .stop _

theorem keeps_textList (texts : List String) : Keeps [] (textList texts) :=
  (Keeps.of_frame_eq fun _ => rfl).bind fun _ => .pure _

theorem keeps_call (b : Builtin) (name : String) (args : List Value) (line : Nat) :
    Keeps [] (b.call name args line) := by
  unfold call
  split
  · cases b with
    | print => exact (Keeps.of_frame_eq fun _ => rfl).bind fun _ => .pure _
    | input =>
      refine (Keeps.of_frame_eq fun _ => rfl).bind fun _ => Keeps.readLine.bind fun line => ?_
      cases line <;> exact .pure _
    | sqrt => exact (Keeps.ofExcept _).bind fun _ => .pure _
    | abs => exact (Keeps.ofExcept _).bind fun _ => .pure _
    | typeof => exact .pure _
    | getMethods => exact (keeps_classNamed _).bind fun c => keeps_textList c.methodNames
    | getFields => exact (keeps_classNamed _).bind fun c => keeps_textList c.fieldNames
  · exact .faultAt _ _

end Builtin

/-- The evaluation of the parts keeps the frame, so that the evaluation of the whole can. -/
structure Evaluators.Restores (k : Evaluators) : Prop where
  eval (e : Expr) : Run.Keeps [] (k.eval e)
  exec (s : Stmt) : Run.Keeps s.assigned (k.exec s)

section Rules

open Run

variable {k : Evaluators} (hk : k.Restores) (env : Environment)

include hk

theorem keeps_evalAll (es : List Expr) : Keeps [] (k.evalAll es) := by
  induction es with
  | nil => exact .pure _
  | cons e es ih => exact (hk.eval e).bind fun _ => ih.bind fun _ => .pure _

theorem keeps_execAll (ss : List Stmt) : Keeps (Stmt.assignedAll ss) (k.execAll ss) := by
  induction ss with
  | nil => exact .pure _
  | cons s ss ih =>
    rw [Stmt.assignedAll]
    refine ((hk.exec s).mono (List.subset_append_left _ _)).bind fun outcome => ?_
    split
    · exact ih.mono (List.subset_append_right _ _)
    · exact .pure _

theorem keeps_execBlock (b : Block) : Keeps b.assigned (k.execBlock b) := by
  cases b with
  | mk ss line => exact keeps_execAll hk ss

omit hk in
theorem keeps_checkDepth : Keeps [] (checkDepth env) := by
  rw [checkDepth]
  refine Keeps.get.bind fun c => ?_
  dsimp only
  split
  · exact .stop _
  · exact .pure _

/-- A body assigns what it names in the scope of its own call. -/
theorem keeps_runBody (label : String) (body : Block) (line : Nat) :
    Keeps body.assigned (runBody k label body line) := by
  refine (keeps_execBlock hk body).bind fun outcome => ?_
  cases outcome with
  | normal => exact .pure _
  | returning v => exact .pure _
  | breaking => exact .faultAt _ _
  | continuing => exact .faultAt _ _

/-- Arguments are evaluated by the caller; the body runs in a frame of its own. -/
theorem keeps_invoke (label : String) (f : Function) (args : List Value)
    (receiver : Option Receiver) (line : Nat) :
    Keeps [] (invoke env k label f args receiver line) := by
  rw [invoke]
  refine (Keeps.refuseIf _ _ _).bind fun _ => (keeps_checkDepth env).bind fun _ => ?_
  have body := (keeps_runBody hk label f.body line).tracing.balances
  exact body.inFrame fun _ _ same => same.leavingCall

theorem keeps_callFunction (name : String) (args : List Expr) (line : Nat) :
    Keeps [] (callFunction env k name args line) := by
  rw [callFunction]
  split
  · exact (keeps_evalAll hk args).bind fun _ => Builtin.keeps_call _ _ _ _
  · refine Keeps.get.bind fun c => ?_
    split
    · exact .faultAt _ _
    · exact (keeps_evalAll hk args).bind fun _ => keeps_invoke hk env _ _ _ _ _

omit hk in
theorem keeps_readMember (target : Value) (name : String) (line : Nat) :
    Keeps [] (readMember target name line) := by
  unfold readMember
  split
  · refine (Keeps.resolve _ _).bind fun r => ?_
    split
    · exact .faultAt _ _
    · exact Keeps.get.bind fun _ => .pure _
    · exact (Keeps.of_frame_eq fun _ => rfl).bind fun _ => .pure _
  · exact .faultAt _ _

theorem keeps_callMethod (self : Instance) (name : String) (args : List Value) (line : Nat) :
    Keeps [] (callMethod env k self name args line) := by
  rw [callMethod]
  refine (Keeps.resolve _ _).bind fun r => ?_
  split
  · exact (Keeps.debug env _).bind fun _ => keeps_invoke hk env _ _ _ _ _
  · exact .faultAt _ _

theorem keeps_callMember (target : Expr) (name : String) (args : List Expr) (line : Nat) :
    Keeps [] (callMember env k target name args line) := by
  rw [callMember]
  refine (hk.eval target).bind fun object => (keeps_readMember object name line).bind fun v => ?_
  split
  · exact (keeps_evalAll hk args).bind fun _ => keeps_callMethod hk env _ _ _ _
  · exact .faultAt _ _

theorem keeps_callSuper (name : String) (args : List Expr) (line : Nat) :
    Keeps [] (callSuper env k name args line) := by
  rw [callSuper]
  refine Keeps.get.bind fun c => ?_
  dsimp only
  split
  · refine (Keeps.classAt _).bind fun current => ?_
    split
    · exact .faultAt _ _
    · refine Keeps.get.bind fun c => ?_
      split
      · exact .stop _
      · exact (keeps_evalAll hk args).bind fun _ => keeps_invoke hk env _ _ _ _ _
      · exact (Keeps.classAt _).bind fun _ => .faultAt _ _
  · exact .faultAt _ _

theorem keeps_initializeFields (self : Instance) (members : List Member) :
    Keeps [] (initializeFields k self members) := by
  have written (name : String) (v : Value) : Keeps [] (Run.writeField self name v) :=
    .of_frame_eq fun _ => rfl
  induction members with
  | nil => exact .pure _
  | cons m members ih =>
    rcases m with ⟨x, a, _ | e, l⟩ | ⟨x, a, ps, b, v, ov, l⟩
    · exact (Keeps.pure _).bind fun v => (written x v).bind fun _ => ih
    · exact (hk.eval e).bind fun v => (written x v).bind fun _ => ih
    · exact ih

/-- The owner of the running code changes from class to class, the stacks do not. -/
theorem balances_initializeClasses (self : Instance) (indices : List Nat) :
    Balances (initializeClasses k self indices) := by
  induction indices with
  | nil => exact fun _ => ⟨rfl, rfl, rfl⟩
  | cons i rest ih =>
    have owned : Balances
        (modify fun c => { c with frame := { c.frame with owner := some i } } : Run PUnit) :=
      fun _ => ⟨rfl, rfl, rfl⟩
    have found : Keeps [] (Run.classAt i) := .classAt i
    refine owned.bind fun _ => found.balances.bind fun c => ?_
    exact (keeps_initializeFields hk self c.members.values).balances.bind fun _ => ih

theorem keeps_instantiate (className : String) (line : Nat) :
    Keeps [] (instantiate env k className line) := by
  rw [instantiate]
  refine Keeps.get.bind fun _ => (Keeps.ofExceptAt _ _).bind fun index => ?_
  refine (keeps_checkDepth env).bind fun _ => (Keeps.classAt _).bind fun c => ?_
  refine (Keeps.of_frame_eq fun _ => rfl).bind fun self => (Keeps.debug env _).bind fun _ => ?_
  refine (Keeps.chain _).bind fun indices => ?_
  have fields := balances_initializeClasses hk self indices.reverse
  exact Keeps.bind (fields.inFrame fun _ _ same => same.leavingObject) fun _ => .pure _

theorem keeps_evalBinary (op : BinaryOp) (left right : Expr) :
    Keeps [] (evalBinary k op left right) := by
  unfold evalBinary
  refine (hk.eval left).bind fun a => ?_
  split
  · split
    · exact (hk.eval right).bind fun _ => .pure _
    · exact .pure _
  · split
    · exact .pure _
    · exact (hk.eval right).bind fun _ => .pure _
  · exact (hk.eval right).bind fun _ => .ofExcept _

theorem keeps_evalStep (e : Expr) : Keeps [] (evalStep env k e) := by
  cases e with
  | number x line => exact .pure _
  | text s line => exact .pure _
  | boolean b line => exact .pure _
  | null line => exact .pure _
  | var name line => exact .lookup _ _
  | unary op e line => exact (hk.eval e).bind fun _ => .ofExcept _
  | binary op left right line => exact keeps_evalBinary hk op left right
  | call f args line => exact keeps_callFunction hk env f args line
  | new c line => exact keeps_instantiate hk env c line
  | member target name line => exact (hk.eval target).bind fun v => keeps_readMember v name line
  | methodCall target name args line => exact keeps_callMember hk env target name args line
  | superCall name args line => exact keeps_callSuper hk env name args line

theorem keeps_assignMember (target : Expr) (member : String) (value : Expr) (line : Nat) :
    Keeps [] (assignMember k target member value line) := by
  unfold assignMember
  refine (hk.eval target).bind fun object => (hk.eval value).bind fun v => ?_
  split
  · refine (Keeps.resolve _ _).bind fun r => ?_
    split
    · exact .of_frame_eq fun _ => rfl
    · exact .faultAt _ _
  · exact .faultAt _ _

theorem keeps_execSimple (s : Simple) : Keeps s.assigned (execSimple env k s) := by
  refine Keeps.mapStop _ ?_
  cases s with
  | assign name value line =>
    exact (hk.eval value).of_nil.bind fun v => .assign env v (List.mem_singleton_self name)
  | assignMember target member value line => exact keeps_assignMember hk target member value line
  | expr value line => exact (hk.eval value).bind fun _ => .pure _

theorem keeps_evalCondition (condition : Expr) : Keeps [] (evalCondition k condition) :=
  (hk.eval condition).bind fun _ => .pure _

omit hk in
/-- What one round keeps, the loop keeps, whichever way the last round ends. -/
theorem keeps_loop {names : List String} {condition : Run Bool} {body : Run Outcome}
    {after : Run Unit} (hc : Keeps names condition) (hb : Keeps names body)
    (ha : Keeps names after) (bound : Nat) : Keeps names (loop condition body after bound) := by
  induction bound with
  | zero => exact .stop _
  | succ bound ih =>
    rw [loop]
    refine hc.bind fun b => ?_
    split
    · refine hb.bind fun outcome => ?_
      split
      · exact .pure _
      · exact .pure _
      · exact ha.bind fun _ => ih
      · exact ha.bind fun _ => ih
    · exact .pure _

omit hk in
theorem keeps_throwValue (v : Value) : Keeps [] (throwValue env v) :=
  Keeps.get.bind fun _ => (Keeps.debug env _).bind fun _ => .stop _

theorem keeps_handleRaised (handlers : Handlers) (result : Except (Value × List String) Outcome) :
    Keeps handlers.assigned (handleRaised env k handlers result) := by
  have caught (name : String) (body : Block) (v : Value) {names : List String}
      (hn : name ∈ names) (hb : body.assigned ⊆ names) :
      Keeps names (do
        Run.debug env fun _ => "Caught " ++ Text.quoted v.toText ++ " into '" ++ name ++ "'"
        Run.assign env name v
        (k.execBlock body).attempt) :=
    (Keeps.debug env _).bind fun _ => (Keeps.assign env v hn).bind fun _ =>
      ((keeps_execBlock hk body).mono hb).attempt
  unfold handleRaised
  cases result with
  | ok outcome => exact .pure _
  | error e =>
    obtain ⟨v, trace⟩ := e
    cases handlers with
    | catchOnly name body =>
      exact caught name body v List.mem_cons_self (List.subset_cons_self _ _)
    | finallyOnly body => exact .pure _
    | catchFinally name body final =>
      exact caught name body v List.mem_cons_self (by simp [Handlers.assigned])

theorem keeps_execTry (body : Block) (handlers : Handlers) :
    Keeps (body.assigned ++ handlers.assigned) (execTry env k body handlers) := by
  have final (b : Block) (h : handlers.final? = some b) : b.assigned ⊆ handlers.assigned := by
    cases handlers <;> simp_all [Handlers.final?, Handlers.assigned]
  rw [execTry]
  refine ((keeps_execBlock hk body).mono (List.subset_append_left _ _)).attempt.bind fun first => ?_
  refine ((keeps_handleRaised hk env handlers first).mono (List.subset_append_right _ _)).bind
    fun result => ?_
  split
  · exact .resume _
  · rename_i b hb
    refine ((keeps_execBlock hk b).mono
      (List.Subset.trans (final b hb) (List.subset_append_right _ _))).bind fun outcome => ?_
    split
    · exact .resume _
    · exact .pure _

omit hk in
theorem keeps_parseLogged (source : String) : Keeps [] (parseLogged env source) := by
  rw [parseLogged]
  refine (Keeps.forM (fun t => Keeps.debug env _) _).bind fun _ => ?_
  split
  · exact .stop _
  · split
    · exact .pure _
    · exact .stop _
    · exact Keeps.get.bind fun _ => .stop _

omit hk in
theorem keeps_findModule (module : String) (line : Nat) :
    Keeps [] (findModule env module line) := by
  rw [findModule]
  split
  · exact .faultAt _ _
  · exact .pure _

/-- The module runs in a frame of its own, and its errors of syntax are met before it does. -/
theorem keeps_importModule (module : String) (line : Nat) :
    Keeps [] (ClassScript.importModule env k module line) := by
  rw [ClassScript.importModule]
  refine (keeps_findModule env module line).bind fun found => Keeps.get.bind fun c => ?_
  refine (Keeps.refuseIf _ _ _).bind fun _ => (Keeps.debug env _).bind fun _ => ?_
  refine (keeps_parseLogged env _).bind fun program => ?_
  have body := (keeps_execAll hk program.statements).balances
  refine Keeps.bind (body.inFrame fun _ _ same => same.leavingImport) fun outcome => ?_
  cases outcome with
  | normal => exact .pure _
  | returning v => exact .pure _
  | breaking => exact .faultAt _ _
  | continuing => exact .faultAt _ _

omit hk in
theorem keeps_checkSignature (c : ClassDef) (interface : String) (line : Nat) (s : Signature) :
    Keeps [] (checkSignature c interface line s) := by
  have base : Keeps [] (inherited c s.name) := by
    rw [inherited]
    split
    · exact .pure _
    · exact .resolve _ _
  exact base.bind fun _ => .refuseIf _ _ _

omit hk in
theorem keeps_checkInterface (c : ClassDef) (line : Nat) (interface : String) :
    Keeps [] (checkInterface c line interface) := by
  rw [checkInterface]
  refine Keeps.get.bind fun ctx => ?_
  split
  · exact .faultAt _ _
  · exact Keeps.forM (keeps_checkSignature c interface line) _

omit hk in
theorem keeps_declareClass (name : String) (base : Option String) (interfaces : List String)
    (members : List Member) (line : Nat) :
    Keeps [] (declareClass env name base interfaces members line) := by
  have index : Keeps [] (baseIndex base line) := by
    cases base with
    | none => exact .pure _
    | some b => exact Keeps.get.bind fun _ => (Keeps.ofExceptAt _ _).bind fun _ => .pure _
  have register (c : ClassDef) : Keeps [] (registerClass env c line) :=
    Keeps.get.bind fun _ => (Keeps.ofExceptAt _ _).bind fun _ =>
      (Keeps.of_frame_eq fun _ => rfl).bind fun _ => .debug env _
  exact Keeps.get.bind fun _ => (Keeps.refuseIf _ _ _).bind fun _ => index.bind fun _ =>
    (Keeps.forM (keeps_checkInterface _ line) _).bind fun _ => register _

theorem keeps_execStep (s : Stmt) : Keeps s.assigned (execStep env k s) := by
  cases s with
  | simple s => exact (keeps_execSimple hk env s).bind fun _ => .pure _
  | print value line =>
    exact (hk.eval value).bind fun _ => (Keeps.of_frame_eq fun _ => rfl).bind fun _ => .pure _
  | conditional condition thenBranch elseBranch line =>
    refine (keeps_evalCondition hk condition).of_nil.bind fun b => ?_
    cases elseBranch with
    | none =>
      split
      · exact keeps_execBlock hk thenBranch
      · exact .pure _
    | some elseBranch =>
      split
      · exact (keeps_execBlock hk thenBranch).mono (List.subset_append_left _ _)
      · exact (keeps_execBlock hk elseBranch).mono (List.subset_append_right _ _)
  | whileLoop condition body line =>
    exact keeps_loop (keeps_evalCondition hk condition).of_nil (keeps_execBlock hk body)
      (.pure _) k.bound
  | forLoop initializer condition iterator body line =>
    have hi := (keeps_execSimple hk env initializer).mono
      (List.subset_append_left _ (iterator.assigned ++ body.assigned))
    have hu := (keeps_execSimple hk env iterator).mono (List.subset_append_left _ body.assigned)
    have hb := (keeps_execBlock hk body).mono (List.subset_append_right iterator.assigned _)
    exact hi.bind fun _ => keeps_loop (keeps_evalCondition hk condition).of_nil
      (hb.mono (List.subset_append_right _ _)) (hu.mono (List.subset_append_right _ _)) k.bound
  | breakLoop line => exact .pure _
  | continueLoop line => exact .pure _
  | function name params body line => exact (Keeps.of_frame_eq fun _ => rfl).bind fun _ => .pure _
  | returnValue value line =>
    cases value with
    | none => exact .pure _
    | some e => exact (hk.eval e).bind fun _ => .pure _
  | classDecl name base interfaces members line =>
    exact (keeps_declareClass env name base interfaces members line).bind fun _ => .pure _
  | interfaceDecl name methods line =>
    exact (Keeps.of_frame_eq fun _ => rfl).bind fun _ => .pure _
  | tryBlock body handlers line => exact keeps_execTry hk env body handlers
  | throwValue value line => exact (hk.eval value).bind fun _ => keeps_throwValue env _
  | importModule module line => exact keeps_importModule hk env module line

end Rules

/-- Every budget gives evaluators that keep the frame: by induction on the budget, one rule at a
time. -/
theorem evaluators_restore (env : Environment) (n : Nat) : (evaluators env n).Restores := by
  induction n with
  | zero => exact ⟨fun _ => .stop _, fun _ => .stop _⟩
  | succ n ih =>
    exact ⟨fun e => keeps_evalStep ih env e, fun s => (keeps_execStep ih env s).mapStop _⟩

theorem keeps_execProgram (env : Environment) (n : Nat) (p : Program) :
    Run.Keeps (Stmt.assignedAll p.statements) (execProgram env n p) := by
  rw [execProgram]
  refine (keeps_execAll (evaluators_restore env n) p.statements).bind fun outcome => ?_
  split
  · exact .stop _
  · exact .stop _
  · exact .pure _

/-- After every statement, block or program, expression, instantiation or method call, and however
it ends, the frame is the one from before. Call stack, import stack, receiver and owner are the
same, and the active scope has changed by assignments of the executed code itself at most; without
an active scope there is none afterwards. Expressions leave the scope alone too. -/
theorem frame_restored (env : Environment) (n : Nat) (c : Context) :
    (∀ s, c.frame.Continues s.assigned (exec env n s c).2.frame) ∧
    (∀ ss, c.frame.Continues (Stmt.assignedAll ss) ((evaluators env n).execAll ss c).2.frame) ∧
    (∀ p : Program,
      c.frame.Continues (Stmt.assignedAll p.statements) (execProgram env n p c).2.frame) ∧
    (∀ e, (eval env n e c).2.frame = c.frame) ∧
    (∀ className line,
      (instantiate env (evaluators env n) className line c).2.frame = c.frame) ∧
    (∀ self name args line,
      (callMethod env (evaluators env n) self name args line c).2.frame = c.frame) := by
  have hk := evaluators_restore env n
  exact ⟨fun s => hk.exec s c, fun ss => keeps_execAll hk ss c,
    fun p => keeps_execProgram env n p c, fun e => (hk.eval e c).eq,
    fun className line => (keeps_instantiate hk env className line c).eq,
    fun self name args line => (keeps_callMethod hk env self name args line c).eq⟩

end ClassScript
