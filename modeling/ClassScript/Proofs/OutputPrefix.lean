import ClassScript.Proofs.History
import ClassScript.Proofs.RelatedRuns

/-!
# What a run sees of the output before it

Output is added to and never looked at, and neither is the debug log. So a run that starts with
output before its own ends as it would without, in the same context but for that output and for the
log. The statement is about whole runs, since a statement that prints may stand in any function that
is called and in any module that is imported.
-/

namespace ClassScript

namespace Context

/-- The same after more output, with another debug log. -/
def after (c : Context) (text : String) (log : List String) : Context :=
  { c.preceded text with log }

theorem after_empty (c : Context) (log : List String) : c.after "" log = { c with log } := by
  simp only [after, preceded, String.empty_append]

/-- Every context comes after its own output. -/
theorem eq_after (c : Context) :
    c = ({ c with output := "", log := [] } : Context).after c.output c.log := by
  simp only [after, preceded, String.append_empty]

end Context

namespace Run

variable {α β : Type}

/-- After more output and with another debug log, `y` does what `x` does. -/
def Appends (x y : Run α) : Prop :=
  ∀ c text log, ∃ log', y (c.after text log) = ((x c).1, (x c).2.after text log')

namespace Appends

variable {x y : Run α}

/-- A computation that adds to the output at most, and leaves the debug log alone. -/
theorem silent
    (h : ∀ c text log, x (Context.after c text log) = ((x c).1, (x c).2.after text log)) :
    Appends x x :=
  fun c text log => ⟨log, h c text log⟩

theorem pure (a : α) : Appends (Pure.pure a) (Pure.pure a) :=
  silent fun _ _ _ => rfl

theorem stop (s : Stop) : Appends (Run.stop s : Run α) (Run.stop s) :=
  silent fun _ _ _ => rfl

theorem bind {f g : α → Run β} (hx : Appends x y) (hf : ∀ a, Appends (f a) (g a)) :
    Appends (x >>= f) (y >>= g) := by
  intro c text log
  obtain ⟨log', hy⟩ := hx c text log
  rw [bind_apply, bind_apply, hy]
  rcases x c with ⟨_ | a, c'⟩
  · exact ⟨log', rfl⟩
  · exact hf a c' text log'

/-- The context is read, and nothing that comes after the output depends on it. -/
theorem get {f g : Context → Run α}
    (hg : ∀ c text log, g (Context.after c text log) = g c) (hf : ∀ c, Appends (f c) (g c)) :
    Appends (MonadState.get >>= f) (MonadState.get >>= g) := by
  intro c text log
  have read : (MonadState.get >>= g) (c.after text log) = g c (c.after text log) :=
    congrFun (hg c text log) _
  rw [read]
  exact hf c c text log

/-- Only the way of ending is changed. -/
theorem onResult (ρ : Frame → Except Stop α → Except Stop β) (hx : Appends x y) :
    Appends (fun c => (ρ (x c).2.frame (x c).1, (x c).2))
      fun c => (ρ (y c).2.frame (y c).1, (y c).2) := by
  intro c text log
  obtain ⟨log', hy⟩ := hx c text log
  refine ⟨log', ?_⟩
  dsimp only
  rw [hy]
  rfl

theorem mapStop (g : Stop → Stop) (hx : Appends x y) : Appends (x.mapStop g) (y.mapStop g) := by
  simp only [mapStop_eq]
  exact hx.onResult fun _ => Except.mapError g

theorem tracing (hx : Appends x y) : Appends x.tracing y.tracing := by
  simp only [tracing_eq]
  exact hx.onResult fun f => Except.mapError (Stop.withTrace f.calls)

theorem attempt (hx : Appends x y) : Appends x.attempt y.attempt := by
  simp only [attempt_eq]
  exact hx.onResult fun _ => caught

theorem inFrame (enter leave : Frame → Frame) (hx : Appends x y) :
    Appends (Run.inFrame enter leave x) (Run.inFrame enter leave y) := by
  intro c text log
  obtain ⟨log', hy⟩ := hx { c with frame := enter c.frame } text log
  refine ⟨log', ?_⟩
  have step : y { c.after text log with frame := enter (c.after text log).frame } = _ := hy
  rw [Run.inFrame, step]
  rfl

theorem update {f : Context → Context}
    (h : ∀ c text log, f (Context.after c text log) = (f c).after text log) :
    Appends (modify f : Run PUnit) (modify f) :=
  silent fun c text log => congrArg (Prod.mk _) (h c text log)

theorem debug (env : Environment) (line : Unit → String) :
    Appends (Run.debug env line) (Run.debug env line) := by
  intro c text log
  cases hd : env.debug with
  | false =>
    simp only [Run.debug, hd]
    exact ⟨log, rfl⟩
  | true =>
    simp only [Run.debug, hd]
    exact ⟨line () :: log, rfl⟩

theorem assign (env : Environment) (name : String) (v : Value) :
    Appends (Run.assign env name v) (Run.assign env name v) := by
  apply get
  · intro c text log
    rfl
  · intro c
    cases c.frame.scope with
    | none => exact (debug env _).bind fun _ => update fun _ _ _ => rfl
    | some scope => exact (debug env _).bind fun _ => update fun _ _ _ => rfl

end Appends

end Run

/-- The relation of a run to itself after more output. -/
def appending : RunRelation Unit :=
  fun _ _ x y => x.Appends (y ())

open Run in
theorem appending_closed (env : Environment) : appending.Closed env env.debug where
  pure a := Appends.pure a
  stop _ := Appends.stop _
  bind hx hf := Appends.bind hx hf
  get blind hf :=
    Appends.get (fun c text log => blind () c c.frame.imports log (text ++ c.output)) hf
  step {_ _ x} blind adds keeps _ := by
    refine Appends.silent fun c text log => ?_
    have himports : (x c).2.frame.imports = c.frame.imports := by rw [(keeps c).1]
    calc x (c.after text log)
        = ((x (c.preceded text)).1, (x (c.preceded text)).2.restack c.frame.imports log) :=
          blind (c.preceded text) c.frame.imports log
      _ = ((x c).1, ((x c).2.preceded text).restack (x c).2.frame.imports log) := by
          rw [adds, himports]
  debug line := Appends.debug env line
  atLine _ hx := Appends.mapStop _ hx
  assign name v := Appends.assign env name v
  own i := Appends.update fun _ _ _ => rfl
  enter _ hx := Appends.inFrame _ _ hx
  fail _ := Appends.stop _
  attempt hx := Appends.attempt hx
  call _ _ _ hx := Appends.inFrame _ _ (Appends.tracing hx)

open Run in
/-- A module is looked up, refused and read without a look at the output, and runs like the rest. -/
theorem appends_importModule {k : Evaluators} (hk : k.Related appending fun _ => k)
    (env : Environment) (module : String) (line : Nat) :
    Appends (importModule env k module line) (importModule env k module line) := by
  have closed := appending_closed env
  have found : Appends (findModule env module line) (findModule env module line) :=
    closed.findModule (p := fun _ => True) module line
  have tree (text : String) : Appends (parseLogged env text) (parseLogged env text) :=
    closed.parseLogged (p := fun _ => True) text
  have ending (outcome : Outcome) :
      Appends (moduleOutcome module line outcome) (moduleOutcome module line outcome) :=
    closed.moduleOutcome (p := fun _ => True) module line outcome
  have refused (condition : Bool) {cause : Cause} (h : cause.leftCall? = none) :
      Appends (Run.refuseIf condition cause line) (Run.refuseIf condition cause line) :=
    closed.refuseIf (p := fun _ => True) condition h line
  refine found.bind fun m => Appends.get (fun _ _ _ => rfl) fun c => ?_
  refine (refused _ rfl).bind fun _ => (Appends.debug env _).bind fun _ => ?_
  refine (tree m.2).bind fun program => ?_
  exact (Appends.inFrame _ _ (closed.execAll hk program.statements)).bind ending

/-- Evaluation does not see the output before it, on any budget: by induction on the budget. -/
theorem evaluators_append (env : Environment) (n : Nat) :
    (evaluators env n).Related appending fun _ => evaluators env n := by
  have closed := appending_closed env
  induction n with
  | zero => exact ⟨fun _ _ => closed.stop trivial, fun _ => closed.stop trivial, closed.loop _⟩
  | succ n ih =>
    refine ⟨fun _ e => closed.evalStep ih e, fun s => closed.atLine s.line ?_, closed.loop _⟩
    exact closed.execStep ih fun module line _ => appends_importModule ih env module line

theorem appends_execAll (env : Environment) (n : Nat) (ss : List Stmt) :
    Run.Appends ((evaluators env n).execAll ss) ((evaluators env n).execAll ss) :=
  (appending_closed env).execAll (evaluators_append env n) ss

theorem appends_execProgram (env : Environment) (n : Nat) (p : Program) :
    Run.Appends (execProgram env n p) (execProgram env n p) := by
  refine (appends_execAll env n p.statements).bind fun outcome => ?_
  cases outcome with
  | normal => exact .pure _
  | returning v => exact .pure _
  | breaking => exact .stop _
  | continuing => exact .stop _

end ClassScript
