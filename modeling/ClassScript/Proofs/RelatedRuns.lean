import ClassScript.Proofs.OrdinaryCauses

/-!
# Relations that the rules of evaluation keep

Some statements compare a run with variants of it: with the runs that keep notes, or with the run
under another import stack. Such a statement is a relation, and the rules of evaluation are made of
few pieces. A relation that holds of each piece is kept by every rule but the one for imports, and
this is shown here once, one lemma for each rule, whatever the relation is.

What is left to the single relation is imports, the only place where the import stack is looked at
and where code of a call goes on outside of every call. A relation that says something about thrown
values or about traces may treat calls, `throw` and `try` in a way of its own too, and one that says
something about the lines of faults the statements that fill them in.
-/

namespace ClassScript

/-- Code in this scope assigns local variables. -/
def InCall (scope : Option Scope) : Prop :=
  scope.isSome = true

def Frame.restack (f : Frame) (imports : List ModuleRef) : Frame :=
  { f with imports }

namespace Context

/-- The same with another import stack and another debug log. -/
def restack (c : Context) (imports : List ModuleRef) (log : List String) : Context :=
  { c with frame := c.frame.restack imports, log }

/-- The same with other output as well. -/
def unread (c : Context) (imports : List ModuleRef) (log : List String) (output : String) :
    Context :=
  { c.restack imports log with output }

/-- The same with more output before its own. -/
def preceded (c : Context) (text : String) : Context :=
  { c with output := text ++ c.output }

end Context

def Environment.withDebug (env : Environment) (debug : Bool) : Environment :=
  { env with debug }

/-- The code stops by itself: nothing has been thrown, and no call is left. -/
def Stop.Plain : Stop → Prop
  | .raised _ _ => False
  | .fault f => f.trace = none ∧ f.cause.leftCall? = none
  | .malformed _ | .overflow _ | .badIndex | .exhausted => True

/-- The simple statements that are executed as part of a statement. -/
def Stmt.simples : Stmt → List Simple
  | .simple s => [s]
  | .forLoop initializer _ iterator _ _ => [initializer, iterator]
  | _ => []

/-- Passing on thrown values, or code outside of every call. -/
def Stmt.isTransfer : Stmt → Bool
  | .tryBlock .. | .throwValue .. | .importModule .. => true
  | _ => false

/-- Code as the body of a call, which notes the active calls on a fault that leaves it. -/
def Run.called {α : Type} (label : String) (scope : Scope) (receiver : Option Receiver)
    (x : Run α) : Run α :=
  Run.inFrame (fun frame => frame.calling label scope receiver) Frame.leavingCall x.tracing

/-- Code as the initializers of an object. -/
def Run.initializing {α : Type} (o : Instance) (x : Run α) : Run α :=
  Run.inFrame (fun frame => frame.initializing o) Frame.leavingObject x

/-- What is done of a `try` when its body has ended. -/
def afterBody (env : Environment) (k : Evaluators) (handlers : Handlers)
    (first : Except (Value × List String) Outcome) : Run Outcome := do
  let result ← handleRaised env k handlers first
  match handlers.final? with
  | none => Run.resume result
  | some final =>
    match ← k.execBlock final with
    | .normal => Run.resume result
    | outcome => return outcome

/-- A relation between a run and its variants, one for each index, that may rely on a property of
the scope they start in. -/
def RunRelation (ι : Type) :=
  (Option Scope → Prop) → ∀ α : Type, Run α → (ι → Run α) → Prop

/-- The relation holds of all that the rules are made of, with the exception of calls, of what has
to do with thrown values and of the filling in of lines; its variants may have another debug log.
Code that relies on running inside a call is entered by a call or an instantiation. -/
structure RunRelation.Core {ι : Type} (R : RunRelation ι) (env : Environment)
    (debugging : Bool) : Prop where
  pure {p : Option Scope → Prop} {α : Type} (a : α) : R p α (Pure.pure a) fun _ => Pure.pure a
  stop {p : Option Scope → Prop} {α : Type} {s : Stop} :
    s.Plain → R p α (Run.stop s) fun _ => Run.stop s
  bind {p : Option Scope → Prop} {α β : Type} {x : Run α} {y : ι → Run α} {f : α → Run β}
    {g : ι → α → Run β} :
    R p α x y → (∀ a, R p β (f a) fun i => g i a) → R p β (x >>= f) fun i => y i >>= g i
  /-- The context is read, import stack, debug log and output left aside. -/
  get {p : Option Scope → Prop} {α : Type} {f : Context → Run α} {g : ι → Context → Run α} :
    (∀ i c imports log output, g i (Context.unread c imports log output) = g i c) →
    (∀ c, R p α (f c) fun i => g i c) →
    R p α (MonadState.get >>= f) fun i => MonadState.get >>= g i
  /-- A step that has nothing to do with frame, global variables and debug log, and with the output
  no more than to add to it. -/
  step {p : Option Scope → Prop} {α : Type} {x : Run α} :
    (∀ c imports log, x (Context.restack c imports log) = ((x c).1, (x c).2.restack imports log)) →
    (∀ c text, x (Context.preceded c text) = ((x c).1, (x c).2.preceded text)) →
    (∀ c, (x c).2.frame = c.frame ∧ (x c).2.globals = c.globals) →
    (∀ c s, (x c).1 = .error s → s.Plain) →
    R p α x fun _ => x
  debug {p : Option Scope → Prop} (line : Unit → String) :
    R p Unit (Run.debug env line) fun _ => Run.debug (env.withDebug debugging) line
  assign (name : String) (v : Value) :
    R InCall Unit (Run.assign env name v)
      fun _ => Run.assign (env.withDebug debugging) name v
  /-- The code goes on as that of another class. -/
  own (i : Nat) :
    R InCall PUnit (modify fun c => { c with frame := { c.frame with owner := some i } })
      fun _ => modify fun c => { c with frame := { c.frame with owner := some i } }
  /-- The initializers of an object run in a scope of their own, under the same import stack and the
  same calls. -/
  enter {p : Option Scope → Prop} {α : Type} {x : Run α} {y : ι → Run α} (o : Instance) :
    R InCall α x y → R p α (x.initializing o) fun i => (y i).initializing o

/-- The relation holds of the filling in of lines as well. -/
structure RunRelation.Basic {ι : Type} (R : RunRelation ι) (env : Environment)
    (debugging : Bool) : Prop extends R.Core env debugging where
  atLine {p : Option Scope → Prop} {α : Type} {x : Run α} {y : ι → Run α} (line : Nat) :
    R p α x y → R p α (x.atLine line) fun i => (y i).atLine line

/-- The relation holds of calls and of what has to do with thrown values as well. -/
structure RunRelation.Closed {ι : Type} (R : RunRelation ι) (env : Environment)
    (debugging : Bool) : Prop extends R.Basic env debugging where
  fail {p : Option Scope → Prop} {α : Type} (s : Stop) : R p α (Run.stop s) fun _ => Run.stop s
  attempt {p : Option Scope → Prop} {α : Type} {x : Run α} {y : ι → Run α} :
    R p α x y → R p _ x.attempt fun i => (y i).attempt
  call {p : Option Scope → Prop} {α : Type} {x : Run α} {y : ι → Run α} (label : String)
    (scope : Scope) (receiver : Option Receiver) :
    R InCall α x y →
    R p α (x.called label scope receiver) fun i => (y i).called label scope receiver

/-- The relation holds of the evaluation of expressions, which relies on no scope, and inside a call
of the execution of statements. It is kept by loops, whose rounds the evaluators bound. -/
structure Evaluators.Related {ι : Type} (R : RunRelation ι) (k : Evaluators)
    (k' : ι → Evaluators) : Prop where
  eval (p : Option Scope → Prop) (e : Expr) : R p Value (k.eval e) fun i => (k' i).eval e
  exec (s : Stmt) : R InCall Outcome (k.exec s) fun i => (k' i).exec s
  loop {condition : Run Bool} {body : Run Outcome} {after : Run Unit} {condition' : ι → Run Bool}
    {body' : ι → Run Outcome} {after' : ι → Run Unit} :
    R InCall Bool condition condition' → R InCall Outcome body body' →
    R InCall Unit after after' →
    R InCall Outcome (ClassScript.loop condition body after k.bound)
      fun i => ClassScript.loop (condition' i) (body' i) (after' i) (k' i).bound

/-- The relation holds of every call. -/
def RunRelation.Invokes {ι : Type} (R : RunRelation ι) (env : Environment) (debugging : Bool)
    (k : Evaluators) (k' : ι → Evaluators) : Prop :=
  ∀ (p : Option Scope → Prop) (label : String) (f : Function) (args : List Value)
    (receiver : Option Receiver) (line : Nat),
    R p Value (invoke env k label f args receiver line)
      fun i => invoke (env.withDebug debugging) (k' i) label f args receiver line

namespace RunRelation.Core

section Pieces

variable {ι : Type} {R : RunRelation ι} {env : Environment} {debugging : Bool}
  (hR : R.Core env debugging) {p : Option Scope → Prop} {α : Type}

include hR

theorem faultAt {cause : Cause} (h : cause.leftCall? = none) (line : Nat) :
    R p α (Run.faultAt cause line) fun _ => Run.faultAt cause line :=
  hR.stop ⟨rfl, h⟩

theorem refuseIf (condition : Bool) {cause : Cause} (h : cause.leftCall? = none) (line : Nat) :
    R p Unit (Run.refuseIf condition cause line) fun _ => Run.refuseIf condition cause line := by
  cases condition with
  | true => exact hR.faultAt h line
  | false => exact hR.pure _

theorem ofExcept {r : Except Cause α} (h : Ordinary r) :
    R p α (Run.ofExcept r) fun _ => Run.ofExcept r := by
  cases r with
  | ok a => exact hR.pure a
  | error cause => exact hR.stop ⟨rfl, Cause.leftCall?_eq_none (h cause rfl)⟩

theorem ofExceptAt (line : Nat) {r : Except Cause α} (h : Ordinary r) :
    R p α (Run.ofExceptAt line r) fun _ => Run.ofExceptAt line r := by
  cases r with
  | ok a => exact hR.pure a
  | error cause => exact hR.faultAt (Cause.leftCall?_eq_none (h cause rfl)) line

theorem forM {γ : Type} {f : γ → Run PUnit} {g : ι → γ → Run PUnit}
    (hf : ∀ a, R p PUnit (f a) fun i => g i a) (l : List γ) :
    R p PUnit (l.forM f) fun i => l.forM (g i) := by
  induction l with
  | nil => exact hR.pure _
  | cons a l ih => exact hR.bind (hf a) fun _ => ih

theorem write (text : String) : R p Unit (Run.write text) fun _ => Run.write text := by
  refine hR.step (fun _ _ _ => rfl) (fun c before => ?_) (fun _ => ⟨rfl, rfl⟩) fun _ _ => nofun
  simp only [Run.write, Run.modify_apply, Context.preceded, String.append_assoc]

theorem readLine : R p (Option String) Run.readLine fun _ => Run.readLine := by
  refine hR.step (fun c imports log => ?_) (fun c text => ?_) (fun c => ?_) fun c s => ?_
  · have hinput : (c.restack imports log).input = c.input := rfl
    cases hl : Text.nextLine? c.input <;>
      simp only [Run.readLine, Run.bind_apply, Run.get_apply, Run.set_apply, Run.pure_apply, hl,
        hinput]
    rfl
  · have hinput : (c.preceded text).input = c.input := rfl
    cases hl : Text.nextLine? c.input <;>
      simp only [Run.readLine, Run.bind_apply, Run.get_apply, Run.set_apply, Run.pure_apply, hl,
        hinput]
    rfl
  · cases hl : Text.nextLine? c.input <;>
      simp only [Run.readLine, Run.bind_apply, Run.get_apply, Run.set_apply, Run.pure_apply, hl,
        and_self]
  · cases hl : Text.nextLine? c.input <;>
      simp only [Run.readLine, Run.bind_apply, Run.get_apply, Run.set_apply, Run.pure_apply, hl] <;>
      nofun

theorem freshId : R p Nat Run.freshId fun _ => Run.freshId :=
  hR.step (fun _ _ _ => rfl) (fun _ _ => rfl) (fun _ => ⟨rfl, rfl⟩) fun _ _ => nofun

theorem allocate (classIndex : Nat) (className : String) :
    R p Instance (Run.allocate classIndex className) fun _ => Run.allocate classIndex className :=
  hR.step (fun _ _ _ => rfl) (fun _ _ => rfl) (fun _ => ⟨rfl, rfl⟩) fun _ _ => nofun

theorem writeField (o : Instance) (x : String) (v : Value) :
    R p Unit (Run.writeField o x v) fun _ => Run.writeField o x v :=
  hR.step (fun _ _ _ => rfl) (fun _ _ => rfl) (fun _ => ⟨rfl, rfl⟩) fun _ _ => nofun

theorem readField (o : Instance) (x : String) :
    R p Value (Run.readField o x) fun _ => Run.readField o x :=
  hR.step (fun _ _ _ => rfl) (fun _ _ => rfl) (fun _ => ⟨rfl, rfl⟩) fun _ _ => nofun

theorem lookup (name : String) (line : Nat) :
    R p Value (Run.lookup name line) fun _ => Run.lookup name line := by
  refine hR.get (fun _ _ _ _ _ => rfl) fun c => ?_
  split
  · exact hR.pure _
  · exact hR.faultAt rfl _

theorem resolve (i : Nat) (name : String) :
    R p Resolution (Run.resolve i name) fun _ => Run.resolve i name := by
  refine hR.step (fun c imports log => ?_) (fun c text => ?_) (fun c => ?_) fun c s => ?_
  · have hclasses : (c.restack imports log).classes = c.classes := rfl
    cases hr : c.classes.resolve? i name <;>
      simp only [Run.resolve, Run.bind_apply, Run.get_apply, Run.set_apply, Run.pure_apply,
        Run.stop_apply, hr, hclasses]
    rfl
  · have hclasses : (c.preceded text).classes = c.classes := rfl
    cases hr : c.classes.resolve? i name <;>
      simp only [Run.resolve, Run.bind_apply, Run.get_apply, Run.set_apply, Run.pure_apply,
        Run.stop_apply, hr, hclasses]
    rfl
  · cases hr : c.classes.resolve? i name <;>
      simp only [Run.resolve, Run.bind_apply, Run.get_apply, Run.set_apply, Run.pure_apply,
        Run.stop_apply, hr, and_self]
  · cases hr : c.classes.resolve? i name <;>
      simp only [Run.resolve, Run.bind_apply, Run.get_apply, Run.set_apply, Run.pure_apply,
        Run.stop_apply, hr]
    · rintro ⟨⟩
      trivial
    · nofun

theorem chain (i : Nat) : R p (List Nat) (Run.chain i) fun _ => Run.chain i := by
  refine hR.get (fun _ _ _ _ _ => rfl) fun c => ?_
  split
  · exact hR.stop trivial
  · exact hR.pure _

theorem classAt (i : Nat) : R p ClassDef (Run.classAt i) fun _ => Run.classAt i := by
  refine hR.get (fun _ _ _ _ _ => rfl) fun c => ?_
  split
  · exact hR.stop trivial
  · exact hR.pure _

theorem classNamed (v : Value) :
    R p ClassDef (Builtin.classNamed v) fun _ => Builtin.classNamed v := by
  refine hR.get (fun _ _ _ _ _ => rfl) fun c => ?_
  split
  · exact hR.pure _
  · exact hR.stop ⟨rfl, rfl⟩

theorem textList (texts : List String) :
    R p Value (Builtin.textList texts) fun _ => Builtin.textList texts :=
  hR.bind hR.freshId fun _ => hR.pure _

theorem builtin (b : Builtin) (name : String) (args : List Value) (line : Nat) :
    R p Value (b.call name args line) fun _ => b.call name args line := by
  unfold Builtin.call
  split
  · rename_i v
    cases b with
    | print => exact hR.bind (hR.write _) fun _ => hR.pure _
    | input =>
      refine hR.bind (hR.write _) fun _ => hR.bind hR.readLine fun line => ?_
      cases line with
      | none => exact hR.pure _
      | some line => exact hR.pure _
    | sqrt => exact hR.bind (hR.ofExcept (.toNumber _ v)) fun _ => hR.pure _
    | abs => exact hR.bind (hR.ofExcept (.toNumber _ v)) fun _ => hR.pure _
    | typeof => exact hR.pure _
    | getMethods => exact hR.bind (hR.classNamed v) fun d => hR.textList d.methodNames
    | getFields => exact hR.bind (hR.classNamed v) fun d => hR.textList d.fieldNames
  · exact hR.faultAt rfl _

theorem checkDepth :
    R p Unit (ClassScript.checkDepth env)
      fun _ => ClassScript.checkDepth (env.withDebug debugging) := by
  change R p Unit (ClassScript.checkDepth env) fun _ => ClassScript.checkDepth env
  refine hR.get (fun _ _ _ _ _ => rfl) fun c => ?_
  by_cases h : env.callDepth ≤ c.frame.depth
  · simp only [if_pos h]
    exact hR.stop trivial
  · simp only [if_neg h]
    exact hR.pure _

theorem readMember (target : Value) (name : String) (line : Nat) :
    R p Value (ClassScript.readMember target name line)
      fun _ => ClassScript.readMember target name line := by
  unfold ClassScript.readMember
  split
  · refine hR.bind (hR.resolve _ _) fun r => ?_
    split
    · exact hR.faultAt rfl _
    · exact hR.readField _ _
    · exact hR.bind hR.freshId fun _ => hR.pure _
  · exact hR.faultAt rfl _

theorem findModule (module : String) (line : Nat) :
    R p (ModuleRef × String) (ClassScript.findModule env module line)
      fun _ => ClassScript.findModule (env.withDebug debugging) module line := by
  change R p _ (ClassScript.findModule env module line)
    fun _ => ClassScript.findModule env module line
  rw [ClassScript.findModule]
  split
  · exact hR.faultAt rfl _
  · exact hR.pure _

theorem parseLogged (source : String) :
    R p Program (ClassScript.parseLogged env source)
      fun _ => ClassScript.parseLogged (env.withDebug debugging) source := by
  refine hR.bind (hR.forM (fun t => hR.debug _) _) fun _ => ?_
  cases (scan source).error with
  | some e => exact hR.stop trivial
  | none =>
    dsimp only [Environment.withDebug]
    rcases parseTokens env.syntaxDepth (scan source).tokens with (_ | _) | program
    · exact hR.stop trivial
    · exact hR.get (fun _ _ _ _ _ => rfl) fun _ => hR.stop trivial
    · exact hR.pure _

theorem moduleOutcome (module : String) (line : Nat) (outcome : Outcome) :
    R p Outcome (ClassScript.moduleOutcome module line outcome)
      fun _ => ClassScript.moduleOutcome module line outcome := by
  cases outcome with
  | normal => exact hR.pure _
  | returning v => exact hR.pure _
  | breaking => exact hR.faultAt rfl _
  | continuing => exact hR.faultAt rfl _

/-- Loops of the same bound. -/
theorem loop {condition : Run Bool} {body : Run Outcome} {after : Run Unit}
    {condition' : ι → Run Bool} {body' : ι → Run Outcome} {after' : ι → Run Unit} (bound : Nat)
    (hc : R p Bool condition condition') (hb : R p Outcome body body')
    (ha : R p Unit after after') :
    R p Outcome (ClassScript.loop condition body after bound)
      fun i => ClassScript.loop (condition' i) (body' i) (after' i) bound := by
  induction bound with
  | zero => exact hR.stop trivial
  | succ bound ih =>
    refine hR.bind hc fun b => ?_
    cases b with
    | false => exact hR.pure _
    | true =>
      refine hR.bind hb fun outcome => ?_
      cases outcome with
      | breaking => exact hR.pure _
      | returning v => exact hR.pure _
      | normal => exact hR.bind ha fun _ => ih
      | continuing => exact hR.bind ha fun _ => ih

theorem baseIndex (base : Option String) (line : Nat) :
    R p (Option Nat) (ClassScript.baseIndex base line)
      fun _ => ClassScript.baseIndex base line := by
  cases base with
  | none => exact hR.pure _
  | some b =>
    exact hR.get (fun _ _ _ _ _ => rfl) fun _ => hR.bind (hR.ofExceptAt _ (.lookup _ _)) fun _ =>
      hR.pure _

theorem checkSignature (d : ClassDef) (interface : String) (line : Nat) (s : Signature) :
    R p Unit (ClassScript.checkSignature d interface line s)
      fun _ => ClassScript.checkSignature d interface line s := by
  have base : R p Resolution (inherited d s.name) fun _ => inherited d s.name := by
    rw [inherited]
    split
    · exact hR.pure _
    · exact hR.resolve _ _
  exact hR.bind base fun _ => hR.refuseIf _ rfl _

theorem checkInterface (d : ClassDef) (line : Nat) (interface : String) :
    R p Unit (ClassScript.checkInterface d line interface)
      fun _ => ClassScript.checkInterface d line interface := by
  refine hR.get (fun _ _ _ _ _ => rfl) fun c => ?_
  split
  · exact hR.faultAt rfl _
  · exact hR.forM (hR.checkSignature d interface line) _

theorem registerClass (d : ClassDef) (line : Nat) :
    R p Unit (ClassScript.registerClass env d line)
      fun _ => ClassScript.registerClass (env.withDebug debugging) d line :=
  hR.get (fun _ _ _ _ _ => rfl) fun _ => hR.bind (hR.ofExceptAt _ (.define _ _)) fun _ =>
    hR.bind (hR.step (fun _ _ _ => rfl) (fun _ _ => rfl) (fun _ => ⟨rfl, rfl⟩) fun _ _ => nofun)
      fun _ => hR.debug _

theorem declareClass (name : String) (base : Option String) (interfaces : List String)
    (members : List Member) (line : Nat) :
    R p Unit (ClassScript.declareClass env name base interfaces members line)
      fun _ => ClassScript.declareClass (env.withDebug debugging) name base interfaces members
        line :=
  hR.get (fun _ _ _ _ _ => rfl) fun _ => hR.bind (hR.refuseIf _ rfl _) fun _ =>
    hR.bind (hR.baseIndex base line) fun _ =>
      hR.bind (hR.forM (hR.checkInterface _ line) interfaces) fun _ => hR.registerClass _ line

end Pieces

section Rules

variable {ι : Type} {R : RunRelation ι} {env : Environment} {debugging : Bool}
  (hR : R.Core env debugging) {k : Evaluators} {k' : ι → Evaluators} (hk : k.Related R k')
  {p : Option Scope → Prop}

include hR hk

theorem evalAll (es : List Expr) :
    R p (List Value) (k.evalAll es) fun i => (k' i).evalAll es := by
  induction es with
  | nil => exact hR.pure _
  | cons e es ih => exact hR.bind (hk.eval p e) fun _ => hR.bind ih fun _ => hR.pure _

theorem execAll (ss : List Stmt) :
    R InCall Outcome (k.execAll ss) fun i => (k' i).execAll ss := by
  induction ss with
  | nil => exact hR.pure _
  | cons s ss ih =>
    refine hR.bind (hk.exec s) fun outcome => ?_
    cases outcome with
    | normal => exact ih
    | returning v => exact hR.pure _
    | breaking => exact hR.pure _
    | continuing => exact hR.pure _

theorem execBlock (b : Block) :
    R InCall Outcome (k.execBlock b) fun i => (k' i).execBlock b :=
  hR.execAll hk b.statements

theorem initializeFields (o : Instance) (members : List Member) :
    R InCall Unit (ClassScript.initializeFields k o members)
      fun i => ClassScript.initializeFields (k' i) o members := by
  induction members with
  | nil => exact hR.pure _
  | cons m members ih =>
    rcases m with ⟨x, a, _ | e, l⟩ | ⟨x, a, ps, b, v, ov, l⟩
    · exact hR.bind (hR.pure _) fun v => hR.bind (hR.writeField o x v) fun _ => ih
    · exact hR.bind (hk.eval _ e) fun v => hR.bind (hR.writeField o x v) fun _ => ih
    · exact ih

theorem initializeClasses (o : Instance) (indices : List Nat) :
    R InCall Unit (ClassScript.initializeClasses k o indices)
      fun i => ClassScript.initializeClasses (k' i) o indices := by
  induction indices with
  | nil => exact hR.pure _
  | cons i rest ih =>
    refine hR.bind (hR.own i) fun _ => hR.bind (hR.classAt i) fun d => ?_
    exact hR.bind (hR.initializeFields hk o d.members.values) fun _ => ih

theorem instantiate (className : String) (line : Nat) :
    R p Value (ClassScript.instantiate env k className line)
      fun i => ClassScript.instantiate (env.withDebug debugging) (k' i) className line := by
  refine hR.get (fun _ _ _ _ _ => rfl) fun c => ?_
  refine hR.bind (hR.ofExceptAt _ (.lookup _ _)) fun index => ?_
  refine hR.bind hR.checkDepth fun _ => hR.bind (hR.classAt _) fun d => ?_
  refine hR.bind (hR.allocate _ _) fun o => hR.bind (hR.debug _) fun _ => ?_
  refine hR.bind (hR.chain _) fun indices => ?_
  exact hR.bind (hR.enter o (hR.initializeClasses hk o indices.reverse)) fun _ => hR.pure _

theorem evalBinary (op : BinaryOp) (left right : Expr) :
    R p Value (ClassScript.evalBinary k op left right)
      fun i => ClassScript.evalBinary (k' i) op left right := by
  have operands : R p Value
      (k.eval left >>= fun a => k.eval right >>= fun b => Run.ofExcept (op.apply a b))
      fun i => (k' i).eval left >>= fun a => (k' i).eval right >>= fun b =>
        Run.ofExcept (op.apply a b) :=
    hR.bind (hk.eval p left) fun _ => hR.bind (hk.eval p right) fun _ => hR.ofExcept (.binary _ _ _)
  have decided : R p Value (k.eval right >>= fun b => Pure.pure (Value.boolean b.isTruthy))
      fun i => (k' i).eval right >>= fun b => Pure.pure (Value.boolean b.isTruthy) :=
    hR.bind (hk.eval p right) fun _ => hR.pure _
  cases op
  case and =>
    refine hR.bind (hk.eval p left) fun a => ?_
    cases a.isTruthy with
    | false => exact hR.pure _
    | true => exact decided
  case or =>
    refine hR.bind (hk.eval p left) fun a => ?_
    cases a.isTruthy with
    | false => exact decided
    | true => exact hR.pure _
  all_goals exact operands

theorem assignMember (target : Expr) (member : String) (value : Expr) (line : Nat) :
    R p Unit (ClassScript.assignMember k target member value line)
      fun i => ClassScript.assignMember (k' i) target member value line := by
  refine hR.bind (hk.eval p target) fun object => hR.bind (hk.eval p value) fun v => ?_
  cases object with
  | object o =>
    refine hR.bind (hR.resolve _ _) fun r => ?_
    rcases r with _ | ⟨owner, ⟨x, a, e, l⟩ | _⟩
    · exact hR.faultAt rfl _
    · exact hR.writeField _ _ _
    · exact hR.faultAt rfl _
  | _ => exact hR.faultAt rfl _

theorem evalCondition (condition : Expr) :
    R p Bool (ClassScript.evalCondition k condition)
      fun i => ClassScript.evalCondition (k' i) condition :=
  hR.bind (hk.eval p condition) fun _ => hR.pure _

/-- Every statement keeps the relation if those that fill in lines or pass something on do. -/
theorem execStep {s : Stmt}
    (simples : ∀ x ∈ s.simples, R InCall Unit (ClassScript.execSimple env k x)
      fun i => ClassScript.execSimple (env.withDebug debugging) (k' i) x)
    (transfers : s.isTransfer = true → R InCall Outcome (ClassScript.execStep env k s)
      fun i => ClassScript.execStep (env.withDebug debugging) (k' i) s) :
    R InCall Outcome (ClassScript.execStep env k s)
      fun i => ClassScript.execStep (env.withDebug debugging) (k' i) s := by
  cases s with
  | simple s => exact hR.bind (simples s (List.mem_singleton_self s)) fun _ => hR.pure _
  | print value line =>
    exact hR.bind (hk.eval _ value) fun _ => hR.bind (hR.write _) fun _ => hR.pure _
  | conditional condition thenBranch elseBranch line =>
    refine hR.bind (hR.evalCondition hk condition) fun b => ?_
    cases b with
    | true => exact hR.execBlock hk thenBranch
    | false =>
      cases elseBranch with
      | none => exact hR.pure _
      | some elseBranch => exact hR.execBlock hk elseBranch
  | whileLoop condition body line =>
    exact hk.loop (hR.evalCondition hk condition) (hR.execBlock hk body) (hR.pure _)
  | forLoop initializer condition iterator body line =>
    have again := simples iterator (List.mem_cons_of_mem _ (List.mem_singleton_self _))
    exact hR.bind (simples initializer List.mem_cons_self) fun _ =>
      hk.loop (hR.evalCondition hk condition) (hR.execBlock hk body) again
  | breakLoop line => exact hR.pure _
  | continueLoop line => exact hR.pure _
  | function name params body line =>
    exact hR.bind (hR.step (fun _ _ _ => rfl) (fun _ _ => rfl) (fun _ => ⟨rfl, rfl⟩)
      fun _ _ => nofun) fun _ => hR.pure _
  | returnValue value line =>
    cases value with
    | none => exact hR.pure _
    | some e => exact hR.bind (hk.eval _ e) fun _ => hR.pure _
  | classDecl name base interfaces members line =>
    exact hR.bind (hR.declareClass name base interfaces members line) fun _ => hR.pure _
  | interfaceDecl name methods line =>
    exact hR.bind (hR.step (fun _ _ _ => rfl) (fun _ _ => rfl) (fun _ => ⟨rfl, rfl⟩)
      fun _ _ => nofun) fun _ => hR.pure _
  | tryBlock body handlers line => exact transfers rfl
  | throwValue value line => exact transfers rfl
  | importModule module line => exact transfers rfl

omit hk in
/-- A call is its body after two checks. -/
theorem invokes
    (bodies : ∀ (p : Option Scope → Prop) (label : String) (scope : Scope)
      (receiver : Option Receiver) (body : Block) (line : Nat),
      R p Value ((runBody k label body line).called label scope receiver)
        fun i => (runBody (k' i) label body line).called label scope receiver) :
    R.Invokes env debugging k k' := by
  intro p label f args receiver line
  refine hR.bind (hR.refuseIf _ rfl _) fun _ => hR.bind hR.checkDepth fun _ => ?_
  exact bodies p label _ receiver f.body line

section Calls

variable (calls : R.Invokes env debugging k k')

include calls

theorem callFunction (name : String) (args : List Expr) (line : Nat) :
    R p Value (ClassScript.callFunction env k name args line)
      fun i => ClassScript.callFunction (env.withDebug debugging) (k' i) name args line := by
  simp only [ClassScript.callFunction]
  cases Builtin.ofName? name with
  | some b => exact hR.bind (hR.evalAll hk args) fun vs => hR.builtin b name vs line
  | none =>
    refine hR.get (fun _ _ _ _ _ => rfl) fun c => ?_
    cases c.functions.get? name with
    | none => exact hR.faultAt rfl _
    | some f => exact hR.bind (hR.evalAll hk args) fun vs => calls _ name f vs none line

omit hk in
theorem callMethod (o : Instance) (name : String) (args : List Value) (line : Nat) :
    R p Value (ClassScript.callMethod env k o name args line)
      fun i => ClassScript.callMethod (env.withDebug debugging) (k' i) o name args line := by
  refine hR.bind (hR.resolve _ _) fun r => ?_
  rcases r with _ | ⟨owner, _ | ⟨x, a, ps, b, v, ov, l⟩⟩
  · exact hR.faultAt rfl _
  · exact hR.faultAt rfl _
  · exact hR.bind (hR.debug _) fun _ => calls _ name ⟨ps, b⟩ args (some ⟨o, owner⟩) line

theorem callMember (target : Expr) (name : String) (args : List Expr) (line : Nat) :
    R p Value (ClassScript.callMember env k target name args line)
      fun i => ClassScript.callMember (env.withDebug debugging) (k' i) target name args line := by
  refine hR.bind (hk.eval p target) fun object =>
    hR.bind (hR.readMember object name line) fun v => ?_
  cases v with
  | method id o method =>
    exact hR.bind (hR.evalAll hk args) fun vs => hR.callMethod calls o method vs line
  | _ => exact hR.faultAt rfl _

theorem callSuper (name : String) (args : List Expr) (line : Nat) :
    R p Value (ClassScript.callSuper env k name args line)
      fun i => ClassScript.callSuper (env.withDebug debugging) (k' i) name args line := by
  refine hR.get (fun _ _ _ _ _ => rfl) fun c => ?_
  dsimp only
  cases c.frame.self with
  | none => exact hR.faultAt rfl _
  | some self =>
    cases c.frame.owner with
    | none => exact hR.faultAt rfl _
    | some owner =>
      refine hR.bind (hR.classAt _) fun d => ?_
      cases d.base with
      | none => exact hR.faultAt rfl _
      | some base =>
        refine hR.get (fun _ _ _ _ _ => rfl) fun c' => ?_
        rcases c'.classes.findMethod? (some base) name with
          _ | (_ | ⟨owner', _ | ⟨x, a, ps, b, v, ov, l⟩⟩)
        · exact hR.stop trivial
        · exact hR.bind (hR.classAt _) fun _ => hR.faultAt rfl _
        · exact hR.bind (hR.classAt _) fun _ => hR.faultAt rfl _
        · exact hR.bind (hR.evalAll hk args) fun vs =>
            calls _ _ ⟨ps, b⟩ vs (some ⟨self, owner'⟩) line

/-- Every expression keeps the relation if calls do. -/
theorem evalStep (e : Expr) :
    R p Value (ClassScript.evalStep env k e)
      fun i => ClassScript.evalStep (env.withDebug debugging) (k' i) e := by
  cases e with
  | number x line => exact hR.pure _
  | text s line => exact hR.pure _
  | boolean b line => exact hR.pure _
  | null line => exact hR.pure _
  | var name line => exact hR.lookup name line
  | unary op e line => exact hR.bind (hk.eval p e) fun _ => hR.ofExcept (.unary _ _)
  | binary op left right line => exact hR.evalBinary hk op left right
  | call f args line => exact hR.callFunction hk calls f args line
  | new className line => exact hR.instantiate hk className line
  | member target name line =>
    exact hR.bind (hk.eval p target) fun v => hR.readMember v name line
  | methodCall target name args line => exact hR.callMember hk calls target name args line
  | superCall name args line => exact hR.callSuper hk calls name args line

end Calls

section Catching

variable (attempt : ∀ {α : Type} {x : Run α} {y : ι → Run α},
  R InCall α x y → R InCall _ x.attempt fun i => (y i).attempt)

include attempt

theorem handleRaised (handlers : Handlers) (result : Except (Value × List String) Outcome) :
    R InCall (Except (Value × List String) Outcome)
      (ClassScript.handleRaised env k handlers result)
      fun i => ClassScript.handleRaised (env.withDebug debugging) (k' i) handlers result := by
  unfold ClassScript.handleRaised
  rcases result with ⟨v, trace⟩ | outcome
  · cases handlers.caught? with
    | none => exact hR.pure _
    | some h =>
      exact hR.bind (hR.debug _) fun _ => hR.bind (hR.assign h.1 v) fun _ =>
        attempt (hR.execBlock hk h.2)
  · exact hR.pure _

variable (resume : ∀ r : Except (Value × List String) Outcome,
  R InCall Outcome (Run.resume r) fun _ => Run.resume r)

include resume

theorem afterBody (handlers : Handlers) (first : Except (Value × List String) Outcome) :
    R InCall Outcome (ClassScript.afterBody env k handlers first)
      fun i => ClassScript.afterBody (env.withDebug debugging) (k' i) handlers first := by
  refine hR.bind (hR.handleRaised hk attempt handlers first) fun result => ?_
  cases handlers.final? with
  | none => exact resume _
  | some final =>
    refine hR.bind (hR.execBlock hk final) fun outcome => ?_
    cases outcome with
    | normal => exact resume _
    | returning v => exact hR.pure _
    | breaking => exact hR.pure _
    | continuing => exact hR.pure _

theorem execTry (body : Block) (handlers : Handlers) :
    R InCall Outcome (ClassScript.execTry env k body handlers)
      fun i => ClassScript.execTry (env.withDebug debugging) (k' i) body handlers :=
  hR.bind (attempt (hR.execBlock hk body)) (hR.afterBody hk attempt resume handlers)

end Catching

end Rules

end RunRelation.Core

namespace RunRelation.Basic

variable {ι : Type} {R : RunRelation ι} {env : Environment} {debugging : Bool}
  (hR : R.Basic env debugging) {k : Evaluators} {k' : ι → Evaluators} (hk : k.Related R k')

include hR hk

theorem execSimple (s : Simple) :
    R InCall Unit (ClassScript.execSimple env k s)
      fun i => ClassScript.execSimple (env.withDebug debugging) (k' i) s := by
  refine hR.atLine _ ?_
  cases s with
  | assign name value line => exact hR.bind (hk.eval _ value) fun v => hR.assign name v
  | assignMember target member value line => exact hR.assignMember hk target member value line
  | expr value line => exact hR.bind (hk.eval _ value) fun _ => hR.pure _

/-- Every statement keeps the relation if those that pass something on do. -/
theorem execStep {s : Stmt}
    (transfers : s.isTransfer = true → R InCall Outcome (ClassScript.execStep env k s)
      fun i => ClassScript.execStep (env.withDebug debugging) (k' i) s) :
    R InCall Outcome (ClassScript.execStep env k s)
      fun i => ClassScript.execStep (env.withDebug debugging) (k' i) s :=
  hR.toCore.execStep hk (fun x _ => hR.execSimple hk x) transfers

end RunRelation.Basic

namespace RunRelation.Closed

variable {ι : Type} {R : RunRelation ι} {env : Environment} {debugging : Bool}
  (hR : R.Closed env debugging) {p : Option Scope → Prop}

include hR

theorem resume {α : Type} (r : Except (Value × List String) α) :
    R p α (Run.resume r) fun _ => Run.resume r := by
  cases r with
  | ok a => exact hR.pure a
  | error e => exact hR.fail _

theorem throwValue (v : Value) :
    R p Outcome (ClassScript.throwValue env v)
      fun _ => ClassScript.throwValue (env.withDebug debugging) v :=
  hR.get (fun _ _ _ _ _ => rfl) fun _ => hR.bind (hR.debug _) fun _ => hR.fail _

section Rules

variable {k : Evaluators} {k' : ι → Evaluators} (hk : k.Related R k')

include hk

theorem runBody (label : String) (body : Block) (line : Nat) :
    R InCall Value (ClassScript.runBody k label body line)
      fun i => ClassScript.runBody (k' i) label body line := by
  refine hR.bind (hR.execBlock hk body) fun outcome => ?_
  cases outcome with
  | normal => exact hR.pure _
  | returning v => exact hR.pure _
  | breaking => exact hR.fail _
  | continuing => exact hR.fail _

theorem invokes : R.Invokes env debugging k k' :=
  hR.toBasic.invokes fun _ label scope receiver body line =>
    hR.call label scope receiver (hR.runBody hk label body line)

theorem evalStep (e : Expr) :
    R p Value (ClassScript.evalStep env k e)
      fun i => ClassScript.evalStep (env.withDebug debugging) (k' i) e :=
  hR.toBasic.evalStep hk (hR.invokes hk) e

/-- Every statement keeps the relation if imports do. -/
theorem execStep {s : Stmt}
    (imports : ∀ module line, s = .importModule module line →
      R InCall Outcome (importModule env k module line)
        fun i => importModule (env.withDebug debugging) (k' i) module line) :
    R InCall Outcome (ClassScript.execStep env k s)
      fun i => ClassScript.execStep (env.withDebug debugging) (k' i) s := by
  refine hR.toBasic.execStep hk fun transfer => ?_
  cases s with
  | tryBlock body handlers line => exact hR.execTry hk hR.attempt hR.resume body handlers
  | throwValue value line => exact hR.bind (hk.eval _ value) fun v => hR.throwValue v
  | importModule module line => exact imports module line rfl
  | _ => cases transfer

end Rules

end RunRelation.Closed

end ClassScript
