import ClassScript.Proofs.History
import ClassScript.Proofs.RelatedRuns

/-!
# The traces of thrown values

A thrown value may pass through calls, handlers and modules before it ends a run, while other values
are thrown and caught on the way. To tell where it comes from, every `throw` marks its value with
something read off the context at that moment, in place of the active calls. No rule looks at the
mark, so the run is the same but for the marks, and the mark that a value arrives with shows the
context in which it was thrown.

Thus a trace is found to be the call stack of that context, and to go on from the call stack that
the run started with.
-/

namespace ClassScript

/-- What a value is marked with when it is thrown in a context. -/
abbrev Mark := Context → List String

/-- Marks the values that `x` throws. -/
def Run.marking {α : Type} (mark : Mark) (x : Run α) : Run α :=
  fun c =>
    match x c with
    | (.error (.raised v _), d) => (.error (.raised v (mark d)), d)
    | r => r

/-- The rule for statements, the one for `throw` with marked values. -/
def execStepMarked (env : Environment) (mark : Mark) (k : Evaluators) : Stmt → Run Outcome
  | .throwValue value _ => do
    let v ← k.eval value
    (throwValue env v).marking mark
  | s => execStep env k s

mutual

/-- `eval` with marked values. -/
def evalMarked (env : Environment) (mark : Mark) : Nat → Expr → Run Value
  | 0, _ => Run.stop .exhausted
  | n + 1, e => evalStep env ⟨evalMarked env mark n, execMarked env mark n, n⟩ e

/-- `exec` with marked values. -/
def execMarked (env : Environment) (mark : Mark) : Nat → Stmt → Run Outcome
  | 0, _ => Run.stop .exhausted
  | n + 1, s =>
    Run.atLine s.line (execStepMarked env mark ⟨evalMarked env mark n, execMarked env mark n, n⟩ s)

end

/-- The evaluators with marked values. -/
def marked (env : Environment) (mark : Mark) (n : Nat) : Evaluators :=
  ⟨evalMarked env mark n, execMarked env mark n, n⟩

/-- How a run that was started under `calls` ends, and how it ends with marks: either with a value
thrown in a context that has kept these calls, or in the same way. -/
inductive MarkedEnd {α : Type} (calls : List String) :
    Except Stop α × Context → (Mark → Except Stop α × Context) → Prop
  | thrown {v : Value} {d c : Context} {marked : Mark → Except Stop α × Context}
    (active : calls <:+ d.frame.calls)
    (ends : ∀ mark, marked mark = (.error (.raised v (mark d)), c)) :
    MarkedEnd calls (.error (.raised v d.frame.calls), c) marked
  | other {r : Except Stop α} {c : Context} {marked : Mark → Except Stop α × Context}
    (unraised : ∀ v trace, r ≠ .error (.raised v trace)) (ends : ∀ mark, marked mark = (r, c)) :
    MarkedEnd calls (r, c) marked

namespace Run

variable {α β : Type}

/-- Started under `calls`, the run `x` ends under `calls`, and its thrown values carry the calls of
the context they were thrown in; `y` is `x` with marks. -/
def Marks (calls : List String) (x : Run α) (y : Mark → Run α) : Prop :=
  ∀ c, c.frame.calls = calls →
    (x c).2.frame.calls = calls ∧ MarkedEnd calls (x c) fun mark => y mark c

namespace Marks

variable {calls : List String} {x : Run α} {y : Mark → Run α}

/-- A step that throws nothing. -/
theorem step (keeps : ∀ c, (x c).2.frame.calls = c.frame.calls)
    (unraised : ∀ c v trace, (x c).1 ≠ .error (.raised v trace)) : Marks calls x fun _ => x :=
  fun c hc => ⟨(keeps c).trans hc, .other (unraised c) fun _ => rfl⟩

theorem pure (a : α) : Marks calls (Pure.pure a) fun _ => Pure.pure a :=
  step (fun _ => rfl) fun _ _ _ => nofun

theorem stop {s : Stop} (h : ∀ v trace, s ≠ .raised v trace) :
    Marks calls (Run.stop s : Run α) fun _ => Run.stop s :=
  step (fun _ => rfl) fun _ v trace he => h v trace (Except.error.inj he)

theorem bind {f : α → Run β} {g : Mark → α → Run β} (hx : Marks calls x y)
    (hf : ∀ a, Marks calls (f a) fun mark => g mark a) :
    Marks calls (x >>= f) fun mark => y mark >>= g mark := by
  intro c hc
  obtain ⟨kept, ends⟩ := hx c hc
  simp only [bind_apply]
  rcases hr : x c with ⟨r, c'⟩
  rw [hr] at kept ends
  cases ends with
  | thrown active ends =>
    refine ⟨kept, .thrown active fun mark => ?_⟩
    simp only [ends]
  | other unraised ends =>
    simp only [ends]
    cases r with
    | error s =>
      refine ⟨kept, .other (fun v trace h => unraised v trace ?_) fun _ => rfl⟩
      cases h
      rfl
    | ok a => exact hf a c' kept

theorem get {f : Context → Run α} {g : Mark → Context → Run α}
    (hf : ∀ c, c.frame.calls = calls → Marks calls (f c) fun mark => g mark c) :
    Marks calls (MonadState.get >>= f) fun mark => MonadState.get >>= g mark :=
  fun c hc => hf c hc c hc

/-- Only the way of ending is changed, perhaps by a look at the frame, and thrown values are left
alone. -/
theorem onStop (g : Frame → Stop → Stop)
    (raised : ∀ f v trace, g f (.raised v trace) = .raised v trace)
    (unraised : ∀ f s v trace, g f s = .raised v trace → s = .raised v trace)
    (hx : Marks calls x y) :
    Marks calls (fun c => ((x c).1.mapError (g (x c).2.frame), (x c).2))
      fun mark c => ((y mark c).1.mapError (g (y mark c).2.frame), (y mark c).2) := by
  intro c hc
  obtain ⟨kept, ends⟩ := hx c hc
  dsimp only
  rcases hr : x c with ⟨r, c'⟩
  rw [hr] at kept ends
  have thrown (f : Frame) (v : Value) (trace : List String) :
      (.error (.raised v trace) : Except Stop α).mapError (g f) = .error (.raised v trace) :=
    congrArg Except.error (raised f v trace)
  cases ends with
  | thrown active ends =>
    simp only [ends, thrown]
    exact ⟨kept, .thrown active fun _ => rfl⟩
  | other other ends =>
    simp only [ends]
    refine ⟨kept, .other (fun v trace h => ?_) fun _ => rfl⟩
    cases r with
    | ok a => cases h
    | error s =>
      rw [unraised c'.frame s v trace (Except.error.inj h)] at other
      exact other v trace rfl

theorem atLine (line : Nat) (hx : Marks calls x y) :
    Marks calls (x.atLine line) fun mark => (y mark).atLine line := by
  simp only [Run.atLine, mapStop_eq]
  refine hx.onStop (fun _ => Stop.withLine line) (fun _ _ _ => rfl) fun _ s v trace h => ?_
  cases s with
  | fault f => cases h
  | _ => exact h

theorem tracing (hx : Marks calls x y) :
    Marks calls x.tracing fun mark => (y mark).tracing := by
  simp only [tracing_eq]
  refine hx.onStop (fun f => Stop.withTrace f.calls) (fun _ _ _ => rfl) fun _ s v trace h => ?_
  cases s with
  | fault f => cases h
  | _ => exact h

/-- Code in a frame in which the calls are still active, and which is left under them. -/
theorem inFrame {enter leave : Frame → Frame} {inner : List String} (active : calls <:+ inner)
    (entered : ∀ f, f.calls = calls → (enter f).calls = inner)
    (left : ∀ f, f.calls = inner → (leave f).calls = calls) (hx : Marks inner x y) :
    Marks calls (Run.inFrame enter leave x) fun mark => Run.inFrame enter leave (y mark) := by
  intro c hc
  obtain ⟨kept, ends⟩ := hx { c with frame := enter c.frame } (entered c.frame hc)
  simp only [inFrame_apply]
  rcases hr : x { c with frame := enter c.frame } with ⟨r, c'⟩
  rw [hr] at kept ends
  refine ⟨left c'.frame kept, ?_⟩
  cases ends with
  | thrown active' ends =>
    refine .thrown (active.trans active') fun mark => ?_
    simp only [ends]
  | other unraised ends =>
    refine .other unraised fun mark => ?_
    simp only [ends]

theorem debug (env : Environment) (line : Unit → String) :
    Marks calls (Run.debug env line) fun _ => Run.debug env line := by
  refine step (fun c => ?_) fun c v trace => ?_ <;>
    cases hd : env.debug <;> simp [Run.debug, hd]

theorem assign (env : Environment) (name : String) (v : Value) :
    Marks calls (Run.assign env name v) fun _ => Run.assign env name v := by
  refine get fun c _ => ?_
  cases c.frame.scope with
  | none => exact (debug env _).bind fun _ => step (fun _ => rfl) fun _ _ _ => nofun
  | some scope => exact (debug env _).bind fun _ => step (fun _ => rfl) fun _ _ _ => nofun

/-- The calls active at a `throw` are what its value carries. -/
theorem throwValue (env : Environment) (v : Value) :
    Marks calls (throwValue env v) fun mark => (throwValue env v).marking mark := by
  rintro c rfl
  have run : ∃ d : Context, d.frame = c.frame ∧
      ClassScript.throwValue env v c = (.error (.raised v d.frame.calls), d) := by
    cases hd : env.debug <;>
      simp only [ClassScript.throwValue, Run.debug, bind_apply, get_apply, hd]
    · exact ⟨c, rfl, rfl⟩
    · exact ⟨{ c with log := _ :: c.log }, rfl, rfl⟩
  obtain ⟨d, hframe, hd⟩ := run
  have active : c.frame.calls <:+ d.frame.calls := ⟨[], congrArg Frame.calls hframe.symm⟩
  rw [hd]
  refine ⟨congrArg Frame.calls hframe, .thrown active fun mark => ?_⟩
  simp only [Run.marking, hd]

end Marks

/-- Goes on with a thrown value as the handler does. -/
def catching (handle : Value → Run α) (x : Run α) : Run α :=
  fun c =>
    match x c with
    | (.error (.raised v _), d) => handle v d
    | r => r

/-- The code before a `finally` ends as it would have, unless the `finally` does not end
normally. -/
def before (final rest : Run Outcome) : Run Outcome := do
  match ← final with
  | .normal => rest
  | outcome => return outcome

/-- Goes on with a `finally`, a fault excepted. -/
def finishing (x final : Run Outcome) : Run Outcome :=
  fun c =>
    match x c with
    | (.ok outcome, d) => final.before (Pure.pure outcome) d
    | (.error (.raised v trace), d) => final.before (Run.stop (.raised v trace)) d
    | r => r

theorem attempt_apply (x : Run α) (c : Context) : x.attempt c = (caught (x c).1, (x c).2) :=
  congrFun (attempt_eq x) c

theorem attempt_resume (x : Run α) : x.attempt >>= Run.resume = x := by
  funext c
  rw [bind_apply, attempt_apply]
  rcases x c with ⟨(_ | _ | _ | _ | _ | _) | a, d⟩ <;> rfl

theorem finishing_eq (x final : Run Outcome) :
    x.finishing final = x.attempt >>= fun r => final.before (resume r) := by
  funext c
  rw [bind_apply, attempt_apply, finishing]
  rcases x c with ⟨(_ | _ | _ | _ | _ | _) | a, d⟩ <;> rfl

/-- Code that throws nothing may stand outside of an attempt. -/
theorem attempt_bind {x : Run α} {f : α → Run β}
    (unraised : ∀ c v trace, (x c).1 ≠ .error (.raised v trace)) :
    (x >>= f).attempt = x >>= fun a => (f a).attempt := by
  funext c
  have never := unraised c
  rw [attempt_apply, bind_apply, bind_apply]
  rcases hr : x c with ⟨(_ | _ | _ | _ | _ | _) | a, d⟩
  · rw [hr] at never
    exact absurd rfl (never _ _)
  · rfl
  · rfl
  · rfl
  · rfl
  · rfl
  · exact (attempt_apply _ _).symm

theorem attempt_catching (handle : Value → Run α) (x : Run α) :
    (x.catching handle).attempt = x.attempt >>= fun r =>
      match r with
      | .error (v, _) => (handle v).attempt
      | .ok a => Pure.pure (.ok a) := by
  funext c
  rw [bind_apply, attempt_apply, attempt_apply, catching]
  rcases x c with ⟨(_ | _ | _ | _ | _ | _) | a, d⟩
  · exact (attempt_apply _ _).symm
  all_goals rfl

theorem debug_unraised (env : Environment) (line : Unit → String) (c : Context) (v : Value)
    (trace : List String) : (Run.debug env line c).1 ≠ .error (.raised v trace) := by
  cases hd : env.debug <;> simp [Run.debug, hd]

theorem assign_unraised (env : Environment) (name : String) (v : Value) (c : Context) (w : Value)
    (trace : List String) : (Run.assign env name v c).1 ≠ .error (.raised w trace) := by
  cases hs : c.frame.scope <;> cases hd : env.debug <;>
    simp [Run.assign, Run.debug, bind_apply, hs, hd]

namespace Marks

variable {calls : List String}

theorem catching {x : Run α} {y : Mark → Run α} {handle : Value → Run α}
    {handle' : Mark → Value → Run α} (hx : Marks calls x y)
    (hh : ∀ v, Marks calls (handle v) fun mark => handle' mark v) :
    Marks calls (x.catching handle) fun mark => (y mark).catching (handle' mark) := by
  intro c hc
  obtain ⟨kept, ends⟩ := hx c hc
  simp only [Run.catching]
  rcases hr : x c with ⟨r, c'⟩
  rw [hr] at kept ends
  cases ends with
  | thrown active ends =>
    simp only [ends]
    exact hh _ c' kept
  | other unraised ends =>
    simp only [ends]
    rcases r with (_ | _ | _ | _ | _ | _) | a
    · exact absurd rfl (unraised _ _)
    all_goals exact ⟨kept, .other unraised fun _ => rfl⟩

theorem finishing {x final : Run Outcome} {y final' : Mark → Run Outcome} (hx : Marks calls x y)
    (hf : Marks calls final final') :
    Marks calls (x.finishing final) fun mark => (y mark).finishing (final' mark) := by
  intro c hc
  obtain ⟨kept, ends⟩ := hx c hc
  simp only [Run.finishing]
  rcases hr : x c with ⟨r, c'⟩
  rw [hr] at kept ends
  have resumed {rest : Run Outcome} {rest' : Mark → Run Outcome} (hrest : Marks calls rest rest') :
      Marks calls (final.before rest) fun mark => (final' mark).before (rest' mark) := by
    refine hf.bind fun outcome => ?_
    cases outcome with
    | normal => exact hrest
    | returning v => exact pure _
    | breaking => exact pure _
    | continuing => exact pure _
  cases ends with
  | @thrown v d _ _ active ends =>
    simp only [ends]
    have again : Marks calls (Run.stop (.raised v d.frame.calls) : Run Outcome)
        fun mark => Run.stop (.raised v (mark d)) :=
      fun _ hc => ⟨hc, .thrown active fun _ => rfl⟩
    exact resumed again c' kept
  | other unraised ends =>
    simp only [ends]
    rcases r with (_ | _ | _ | _ | _ | _) | outcome
    · exact absurd rfl (unraised _ _)
    · exact ⟨kept, .other unraised fun _ => rfl⟩
    · exact ⟨kept, .other unraised fun _ => rfl⟩
    · exact ⟨kept, .other unraised fun _ => rfl⟩
    · exact ⟨kept, .other unraised fun _ => rfl⟩
    · exact ⟨kept, .other unraised fun _ => rfl⟩
    · exact resumed (pure outcome) c' kept

end Marks

end Run

/-- The body of a `try` with what its `catch` does. -/
def Evaluators.execCaught (env : Environment) (k : Evaluators) (body : Block)
    (handlers : Handlers) : Run Outcome :=
  match handlers.caught? with
  | none => k.execBlock body
  | some (name, caught) => (k.execBlock body).catching fun v => do
    Run.debug env fun _ => "Caught " ++ Text.quoted v.toText ++ " into '" ++ name ++ "'"
    Run.assign env name v
    k.execBlock caught

theorem attempt_execCaught (env : Environment) (k : Evaluators) (body : Block)
    (handlers : Handlers) : (k.execCaught env body handlers).attempt =
      (k.execBlock body).attempt >>= handleRaised env k handlers := by
  rw [Evaluators.execCaught]
  cases hc : handlers.caught? with
  | none =>
    refine (bind_pure _).symm.trans (congrArg _ (funext fun r => ?_))
    cases r <;> simp [handleRaised, hc]
  | some h =>
    refine (Run.attempt_catching _ _).trans (congrArg _ (funext fun r => ?_))
    cases r with
    | ok a => rw [handleRaised]; rintro _ _ _ _ ⟨⟩
    | error e =>
      simp only [handleRaised, hc]
      rw [Run.attempt_bind (Run.debug_unraised env _)]
      congr 1
      funext _
      rw [Run.attempt_bind (Run.assign_unraised env _ _)]

/-- A `try` is its body with a `catch`, and that with a `finally`. -/
theorem execTry_eq (env : Environment) (k : Evaluators) (body : Block) (handlers : Handlers) :
    execTry env k body handlers = match handlers.final? with
      | none => k.execCaught env body handlers
      | some final => (k.execCaught env body handlers).finishing (k.execBlock final) := by
  rw [execTry]
  cases handlers.final? with
  | none =>
    refine Eq.trans ?_ (Run.attempt_resume _)
    rw [attempt_execCaught, bind_assoc]
  | some final =>
    dsimp only
    rw [Run.finishing_eq, attempt_execCaught, bind_assoc]
    rfl

/-- The relation of a run to the same with marks. -/
def marking : RunRelation Mark :=
  fun _ _ x y => ∀ calls, x.Marks calls y

open Run in
theorem marking_basic (env : Environment) : marking.Basic env env.debug where
  pure a _ := Marks.pure a
  stop plain _ := Marks.stop (by rintro v trace rfl; exact plain)
  bind hx hf calls := Marks.bind (hx calls) fun a => hf a calls
  get _ hf calls := Marks.get fun c _ => hf c calls
  step _ _ keeps plain _ := by
    refine Marks.step (fun c => congrArg Frame.calls (keeps c).1) fun c v trace h => ?_
    exact plain c _ h
  debug line _ := Marks.debug env line
  atLine line hx calls := Marks.atLine line (hx calls)
  assign name v _ := Marks.assign env name v
  own _ _ := Marks.step (fun _ => rfl) fun _ _ _ => nofun
  enter _ hx calls :=
    Marks.inFrame List.suffix_rfl (fun _ hf => hf) (fun _ hf => hf) (hx calls)

section Rules

open Run

variable {k : Evaluators} {k' : Mark → Evaluators} (hk : k.Related marking k') (env : Environment)
  {calls : List String}

include hk

/-- In the body of a call there is one more active call. -/
theorem marks_invokes : marking.Invokes env env.debug k k' := by
  refine (marking_basic env).invokes fun _ label scope receiver body line calls => ?_
  have run (inner : List String) :
      Run.Marks inner (runBody k label body line)
        fun mark => runBody (k' mark) label body line := by
    refine Marks.bind ((marking_basic env).execBlock hk body inner) fun outcome => ?_
    cases outcome with
    | normal => exact .pure _
    | returning v => exact .pure _
    | breaking => exact .stop nofun
    | continuing => exact .stop nofun
  exact Marks.inFrame (List.suffix_cons label calls) (fun _ hf => congrArg (List.cons label) hf)
    (fun _ hf => congrArg List.tail hf) (Marks.tracing (run (label :: calls)))

theorem marks_execTry (body : Block) (handlers : Handlers) :
    Run.Marks calls (execTry env k body handlers)
      fun mark => execTry env (k' mark) body handlers := by
  have basic := marking_basic env
  have caught : Run.Marks calls (k.execCaught env body handlers)
      fun mark => (k' mark).execCaught env body handlers := by
    simp only [Evaluators.execCaught]
    cases handlers.caught? with
    | none => exact basic.execBlock hk body calls
    | some h =>
      refine Marks.catching (basic.execBlock hk body calls) fun v => ?_
      exact (Marks.debug env _).bind fun _ => (Marks.assign env h.1 v).bind fun _ =>
        basic.execBlock hk h.2 calls
  simp only [execTry_eq]
  cases handlers.final? with
  | none => exact caught
  | some final => exact caught.finishing (basic.execBlock hk final calls)

/-- A module runs under the same calls as the code that imports it. -/
theorem marks_importModule (module : String) (line : Nat) :
    Run.Marks calls (importModule env k module line)
      fun mark => importModule env (k' mark) module line := by
  have basic := marking_basic env
  refine Marks.bind (basic.findModule (p := fun _ => True) module line calls) fun m => ?_
  refine Marks.get fun c hc => ?_
  refine Marks.bind (basic.refuseIf (p := fun _ => True) _ rfl line calls) fun _ => ?_
  refine (Marks.debug env _).bind fun _ => ?_
  refine Marks.bind (basic.parseLogged (p := fun _ => True) m.2 calls) fun program => ?_
  have inner := basic.execAll hk program.statements calls
  refine Marks.bind (Marks.inFrame List.suffix_rfl (fun _ hf => hf) (fun _ hf => hf) inner)
    fun outcome => ?_
  exact basic.moduleOutcome (p := fun _ => True) module line outcome calls

theorem marks_execStep (s : Stmt) :
    Run.Marks calls (execStep env k s) fun mark => execStepMarked env mark (k' mark) s := by
  cases s with
  | throwValue value line =>
    exact Marks.bind (hk.eval (fun _ => True) value calls) fun v => Marks.throwValue env v
  | tryBlock body handlers line => exact marks_execTry hk env body handlers
  | importModule module line => exact marks_importModule hk env module line
  | _ => exact (marking_basic env).execStep hk (fun h => by cases h) calls

end Rules

/-- By induction on the budget. -/
theorem evaluators_mark (env : Environment) (n : Nat) :
    (evaluators env n).Related marking fun mark => marked env mark n := by
  have basic := marking_basic env
  induction n with
  | zero => exact ⟨fun _ _ => basic.stop trivial, fun _ => basic.stop trivial, basic.loop _⟩
  | succ n ih =>
    refine ⟨fun _ e => basic.evalStep ih (marks_invokes ih env) e, fun s calls => ?_, basic.loop _⟩
    exact (marks_execStep ih env s).atLine s.line

end ClassScript
