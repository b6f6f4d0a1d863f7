import ClassScript.Proofs.DisciplineRules
import ClassScript.Proofs.FrameRestoration
import ClassScript.Proofs.RelatedRuns
import ClassScript.Proofs.SafeRuns

/-!
# Expressions bind no variable

Every assignment goes to the scope of the running call, or to the global variables outside of every
call. The code that an expression can reach, that of functions, methods and initializers, runs in a
scope of its own. So evaluating an expression leaves the scope of the caller alone, and it leaves
the global variables alone unless a module is imported on the way, which runs outside of every call.

Whether a module is imported is read off the history of the evaluation. None is where no function or
method of the context has an import in its body, since an expression has no statements of its own.
-/

namespace ClassScript

/-- Whether an import statement is about to be executed. -/
def Event.isImport (ev : Event) : Bool :=
  match ev.moment with
  | .executing (.importModule _ _) => true
  | _ => false

/-- No import statement is executed. -/
def ImportFree (events : List Event) : Prop :=
  ∀ ev ∈ events, ev.isImport = false

theorem ImportFree.append {events more : List Event} :
    ImportFree (events ++ more) ↔ ImportFree events ∧ ImportFree more := by
  simp only [ImportFree, List.forall_mem_append]

namespace Run

variable {α β : Type}

/-- From every context `x` has a history, `y` being `x` with notes. Started in a scope with the
property `p`, it keeps this property and the global variables unless it imports a module. -/
def Spares (p : Option Scope → Prop) (x : Run α) (y : Scribe → Run α) : Prop :=
  ∀ c, ∃ events, x.History y c events ∧ (ImportFree events → p c.frame.scope →
    (x c).2.globals = c.globals ∧ p (x c).2.frame.scope)

namespace Spares

variable {p : Option Scope → Prop} {x : Run α} {y : Scribe → Run α}

/-- A run without events. -/
theorem silent (h : ∀ c, p c.frame.scope → (x c).2.globals = c.globals ∧ p (x c).2.frame.scope)
    (same : ∀ c note log, y note (c.withLog log) = ((x c).1, (x c).2.withLog log)) :
    Spares p x y :=
  fun c => ⟨[], same c, fun _ => h c⟩

/-- A history is all that is asked of a run that has no scope to start in. -/
theorem vacuous (hx : Spares p x y) : Spares (fun _ => False) x y := by
  intro c
  obtain ⟨events, history, _⟩ := hx c
  exact ⟨events, history, fun _ => False.elim⟩

theorem pure (a : α) : Spares p (Pure.pure a) fun _ => Pure.pure a :=
  silent (fun _ hp => ⟨rfl, hp⟩) fun _ _ _ => rfl

theorem stop (stop : Stop) : Spares p (Run.stop stop : Run α) fun _ => Run.stop stop :=
  silent (fun _ hp => ⟨rfl, hp⟩) fun _ _ _ => rfl

theorem bind {f : α → Run β} {g : Scribe → α → Run β} (hx : Spares p x y)
    (hf : ∀ a, Spares p (f a) fun note => g note a) :
    Spares p (x >>= f) fun note => y note >>= g note := by
  intro c
  obtain ⟨events, history, spared⟩ := hx c
  rcases hr : x c with ⟨r, c'⟩
  rw [hr] at spared
  cases r with
  | error stop =>
    refine ⟨events, history.bind_error hr, ?_⟩
    rw [bind_apply, hr]
    exact spared
  | ok a =>
    obtain ⟨more, history', spared'⟩ := hf a c'
    refine ⟨events ++ more, history.bind_ok hr history', fun free hp => ?_⟩
    obtain ⟨free₁, free₂⟩ := ImportFree.append.mp free
    obtain ⟨hglobals, hp'⟩ := spared free₁ hp
    obtain ⟨hglobals', hp''⟩ := spared' free₂ hp'
    rw [bind_apply, hr]
    exact ⟨hglobals'.trans hglobals, hp''⟩

/-- The context is read; what follows must not look at the log. -/
theorem get {f : Context → Run α} {g : Scribe → Context → Run α}
    (hg : ∀ note c log, g note (Context.withLog c log) = g note c)
    (hf : ∀ c, Spares p (f c) fun note => g note c) :
    Spares p (MonadState.get >>= f) fun note => MonadState.get >>= g note := by
  intro c
  obtain ⟨events, history, spared⟩ := hf c c
  exact ⟨events, history.get hg, spared⟩

/-- Only the way of ending is changed. -/
theorem onResult (ρ : Frame → Except Stop α → Except Stop β) (hx : Spares p x y) :
    Spares p (fun c => (ρ (x c).2.frame (x c).1, (x c).2))
      fun note c => (ρ (y note c).2.frame (y note c).1, (y note c).2) := by
  intro c
  obtain ⟨events, history, spared⟩ := hx c
  exact ⟨events, history.onResult ρ, spared⟩

theorem mapStop (g : Stop → Stop) (hx : Spares p x y) :
    Spares p (x.mapStop g) fun note => (y note).mapStop g := by
  simp only [mapStop_eq]
  exact hx.onResult fun _ => Except.mapError g

theorem tracing (hx : Spares p x y) : Spares p x.tracing fun note => (y note).tracing := by
  simp only [tracing_eq]
  exact hx.onResult fun f => Except.mapError (Stop.withTrace f.calls)

theorem attempt (hx : Spares p x y) : Spares p x.attempt fun note => (y note).attempt := by
  simp only [attempt_eq]
  exact hx.onResult fun _ => caught

/-- Code in a scope of its own, on whose property it relies. -/
theorem inFrame {q : Option Scope → Prop} {enter leave : Frame → Frame}
    (hq : ∀ f : Frame, p f.scope → q (enter f).scope) (hx : Spares q x y) :
    Spares p (Run.inFrame enter leave x) fun note => Run.inFrame enter leave (y note) := by
  intro c
  obtain ⟨events, history, spared⟩ := hx { c with frame := enter c.frame }
  refine ⟨events, history.inFrame leave, fun free hp => ?_⟩
  exact ⟨(spared free (hq c.frame hp)).1, hp⟩

theorem noting (before : Moment) (after : Except Stop α → Moment) (hx : Spares p x y) :
    Spares p x fun note => Run.noting note before after (y note) := by
  intro c
  obtain ⟨events, history, spared⟩ := hx c
  refine ⟨_, history.noting _ _, fun free => spared fun ev hev => free ev ?_⟩
  exact List.mem_cons_of_mem _ (List.mem_append_left _ hev)

/-- After an import nothing is asked of the global variables. -/
theorem noting_import (module : String) (line : Nat) (after : Except Stop α → Moment)
    (hx : Spares (fun _ => False) x y) :
    Spares p x fun note =>
      Run.noting note (.executing (.importModule module line)) after (y note) := by
  intro c
  obtain ⟨events, history, _⟩ := hx c
  refine ⟨_, history.noting _ _, fun free => ?_⟩
  cases free _ List.mem_cons_self

theorem debug (env : Environment) (line : Unit → String) :
    Spares p (Run.debug env line) fun _ => Run.debug env.quiet line := by
  refine silent (fun c hp => ?_) fun c note log => ?_
  all_goals cases hd : env.debug <;> simp only [Run.debug, hd]
  · exact ⟨rfl, hp⟩
  · exact ⟨rfl, hp⟩
  · rfl
  · rfl

/-- Inside a call the assigned variable is a local one. -/
theorem assign (env : Environment) (name : String) (v : Value) :
    Spares InCall (Run.assign env name v) fun _ => Run.assign env.quiet name v := by
  refine silent (fun c hp => ?_) fun c note log => ?_
  · obtain ⟨scope, hs⟩ := Option.isSome_iff_exists.mp hp
    cases hd : env.debug <;>
      simp only [Run.assign, Run.debug, bind_apply, get_apply, hs, hd]
    all_goals exact ⟨rfl, rfl⟩
  · have hscope : (c.withLog log).frame.scope = c.frame.scope := rfl
    cases hs : c.frame.scope <;> cases hd : env.debug <;>
      simp only [Run.assign, Run.debug, bind_apply, get_apply, hscope, hs, hd] <;> rfl

end Spares

end Run

/-- The relation of a run to the same with notes, when it spares the global variables. -/
def sparing : RunRelation Scribe :=
  fun p _ x y => x.Spares p y

open Run in
theorem sparing_closed (env : Environment) : sparing.Closed env false where
  pure a := Spares.pure a
  stop _ := Spares.stop _
  bind hx hf := Spares.bind hx hf
  get blind hf := Spares.get (fun note c log => blind note c c.frame.imports log c.output) hf
  step {_ _ x} blind _ keeps _ := by
    refine Spares.silent (fun c hp => ?_) fun c _ log => ?_
    · obtain ⟨hframe, hglobals⟩ := keeps c
      exact ⟨hglobals, (congrArg Frame.scope hframe).symm ▸ hp⟩
    · have himports : (x c).2.frame.imports = c.frame.imports := by rw [(keeps c).1]
      have noted : (x c).2.restack c.frame.imports log = (x c).2.withLog log := by
        rw [← himports]
        rfl
      exact (blind c c.frame.imports log).trans (congrArg (Prod.mk _) noted)
  debug line := Spares.debug env line
  atLine _ hx := Spares.mapStop _ hx
  assign name v := Spares.assign env name v
  own i := Spares.silent (fun _ hp => ⟨rfl, hp⟩) fun _ _ _ => rfl
  enter _ hx := Spares.inFrame (q := InCall) (fun _ _ => rfl) hx
  fail _ := Spares.stop _
  attempt hx := Spares.attempt hx
  call _ _ _ hx := Spares.inFrame (q := InCall) (fun _ _ => rfl) (Spares.tracing hx)

section Rules

open Run

variable {k : Evaluators} {k' : Scribe → Evaluators} (hk : k.Related sparing k')
  (env : Environment)

include hk

/-- A module runs outside of every call, so of an import there is a history and no more. -/
theorem spares_importModule (module : String) (line : Nat) :
    Spares (fun _ => False) (importModule env k module line)
      fun note => importModule env.quiet (k' note) module line := by
  have closed := sparing_closed env
  refine Spares.bind (closed.findModule module line) fun m => ?_
  refine Spares.get (fun _ _ _ => rfl) fun c => ?_
  refine Spares.bind (closed.refuseIf _ rfl _) fun _ => Spares.bind (closed.debug _) fun _ => ?_
  refine Spares.bind (closed.parseLogged _) fun program => ?_
  have body := (closed.execAll hk program.statements).vacuous
  refine Spares.bind (Spares.inFrame (fun _ h => h) body) fun outcome => ?_
  exact closed.moduleOutcome module line outcome

/-- A statement with the moments before and after it. -/
theorem spares_noted_exec (s : Stmt) :
    Spares InCall (Run.atLine s.line (execStep env k s)) fun note =>
      Run.noting note (.executing s) (.executed s)
        (Run.atLine s.line (execStep env.quiet (k' note) s)) := by
  by_cases hs : ∃ module line, s = .importModule module line
  · obtain ⟨module, line, rfl⟩ := hs
    exact .noting_import module line _ ((spares_importModule hk env module line).mapStop _)
  · have step : Spares InCall (execStep env k s) fun note => execStep env.quiet (k' note) s :=
      (sparing_closed env).execStep hk fun module line h => absurd ⟨module, line, h⟩ hs
    exact .noting _ _ (step.mapStop _)

end Rules

/-- Every budget gives evaluators that spare the global variables: by induction on the budget. -/
theorem evaluators_spare (env : Environment) (n : Nat) :
    (evaluators env n).Related sparing fun note => noted env.quiet note n := by
  induction n with
  | zero =>
    exact ⟨fun _ _ => Run.Spares.noting _ _ (.stop _), fun _ => Run.Spares.noting _ _ (.stop _),
      (sparing_closed env).loop _⟩
  | succ n ih =>
    exact ⟨fun _ e => Run.Spares.noting _ _ ((sparing_closed env).evalStep ih e),
      fun s => spares_noted_exec ih env s, (sparing_closed env).loop _⟩

/-- To have no import, not even in the body of a function. -/
def importless : Discipline where
  stmt _ s := s.Everywhere fun s => ∀ module line, s ≠ .importModule module line
  expr _ := True
  cause _ := True
  raises := True
  exprs_of _ _ _ := trivial
  operands_of _ _ _ := trivial
  inside h := by
    cases h with
    | intro _ inside => exact inside
  throws _ := trivial
  control _ _ := Or.inr fun _ => trivial
  ordinary _ := trivial

theorem Event.isImport_of_keeps {ev : Event} (h : ev.moment.Keeps importless) :
    ev.isImport = false := by
  obtain ⟨moment, c⟩ := ev
  cases moment with
  | executing s =>
    obtain ⟨_, hs⟩ := h
    cases s with
    | importModule module line => exact absurd rfl (hs.here module line)
    | _ => rfl
  | _ => rfl

/-- Where no stored code has an import in it, evaluating an expression imports nothing. No module is
reached whose code would have to be looked at: the first import would be one of stored code. -/
theorem importFree_of_stores {env : Environment} {n : Nat} {e : Expr} {c : Context}
    {events : List Event} (stores : c.Stores importless)
    (history : (eval env n e).History (fun note => evalNoted env.quiet note n e) c events) :
    ImportFree events := by
  obtain ⟨events', history', kept⟩ := (evaluators_obey env importless n).eval (fun _ => True) e c
  cases history.unique history'
  -- no import is asked about, so none has to be of importless code
  have imports : ∀ ev ∈ events, ev.moment.Keeps importless → ev.ImportsCode env importless := by
    intro ev _ keeps module line path text p executing
    rw [executing] at keeps
    obtain ⟨_, hs⟩ := keeps
    exact absurd rfl (hs.here module line)
  obtain ⟨_, _, keeps⟩ := kept trivial imports stores
  exact fun ev hev => Event.isImport_of_keeps (keeps ev hev)

/-- Evaluating an expression binds no variable. However it ends, the frame and with it the scope of
the caller is the same, and so are the global variables unless a module is imported on the way. That
takes an import statement in the body of a function or method that the evaluation reaches
(`importFree_of_stores`); it asks less to have none among the events than to have none in these
bodies. -/
theorem eval_binds_nothing (env : Environment) (n : Nat) (e : Expr) (c : Context) :
    (eval env n e c).2.frame = c.frame ∧
    ∃ events, (eval env n e).History (fun note => evalNoted env.quiet note n e) c events ∧
      (ImportFree events → (eval env n e c).2.globals = c.globals) := by
  constructor
  · exact ((evaluators_restore env n).eval e c).eq
  · obtain ⟨events, history, spared⟩ := (evaluators_spare env n).eval (fun _ => True) e c
    exact ⟨events, history, fun free => (spared free trivial).1⟩

private def nowhere : Environment := ⟨⟨"", []⟩, none, 9, 9, true⟩

/-- A variable, and a function that assigns a parameter of the same name. -/
private def sharingName : Context :=
  { Context.initial "" with
    globals := ⟨[("a", .boolean true)]⟩
    functions := ⟨[("f", ⟨["a"],
      ⟨[.simple (.assign "a" (.null 1) 1), .returnValue (some (.var "a" 1)) 1], 1⟩⟩)]⟩ }

private theorem sharingName_importless : sharingName.Stores importless := by
  refine ⟨fun {name f} hf => ?_, (Context.stores_initial importless "").classes⟩
  -- only one function is stored
  cases List.mem_singleton.mp (Bindings.mem_values_of_get? hf)
  refine ⟨false, .function name _ _ 1, .intro nofun fun b hb s hs => ?_, 1, rfl⟩
  cases List.mem_singleton.mp hb
  rcases List.mem_pair.mp hs with rfl | rfl
  · exact .of_no_bodies nofun rfl
  · exact .of_no_bodies nofun rfl

/-- The parameter is assigned, and the variable of its name stays. -/
theorem eval_binds_nothing_shadowed :
    (eval nowhere 6 (.call "f" [.boolean false 1] 1) sharingName).1 = .ok .null ∧
    (eval nowhere 6 (.call "f" [.boolean false 1] 1) sharingName).2.globals =
      sharingName.globals := by
  obtain ⟨_, events, history, kept⟩ :=
    eval_binds_nothing nowhere 6 (.call "f" [.boolean false 1] 1) sharingName
  exact ⟨rfl, kept (importFree_of_stores sharingName_importless history)⟩

end ClassScript
