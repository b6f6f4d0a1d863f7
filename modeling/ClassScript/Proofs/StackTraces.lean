import ClassScript.Proofs.ThrownTraces

/-!
# Stack traces tell the truth

A fault cannot be caught, so the first event of a history at which anything ends with a fault is the
end of the innermost expression or statement that the fault leaves. Its context has the calls that
were active when the fault arose. All that comes after passes the fault on, and no call on the way
out replaces a trace that an inner call has noted.

Seen from code that runs under some calls, a fault has a trace exactly if more calls were active
where it arose, and then the trace lists all of them. The one fault that arises in a call whose body
has ended already is the one for a `break` or `continue` that leaves the body.
-/

namespace ClassScript

def Stop.fault? : Stop → Option Fault
  | .fault f => some f
  | _ => none

/-- The fault that a run ends with. -/
def faultOf {α : Type} : Except Stop α → Option Fault
  | .ok _ => none
  | .error s => s.fault?

theorem faultOf_eq_some {α : Type} {r : Except Stop α} {f : Fault} :
    faultOf r = some f ↔ r = .error (.fault f) := by
  rcases r with (_ | _ | _ | _ | _ | _) | _ <;> simp [faultOf, Stop.fault?]

/-- The fault that an evaluation or execution ends with at the event. -/
def Event.fault? (ev : Event) : Option Fault :=
  match ev.moment with
  | .evaluated _ r => faultOf r
  | .executed _ r => faultOf r
  | _ => none

/-- Nothing ends with a fault. -/
def Calm (events : List Event) : Prop :=
  ∀ ev ∈ events, ev.fault? = none

theorem Calm.nil : Calm [] := by
  intro ev h
  cases h

theorem Calm.append {events more : List Event} (h : Calm events) (h' : Calm more) :
    Calm (events ++ more) :=
  List.forall_mem_append.mpr ⟨h, h'⟩

/-- The calls active when a fault of this cause arises in code under `calls`. -/
def Cause.active (cause : Cause) (calls : List String) : List String :=
  cause.leftCall?.toList ++ calls

/-- The trace, for code under `calls`, of a fault that arose under `stack`. -/
def traceFrom (calls stack : List String) : Option (List String) :=
  if stack = calls then none else some stack

/-- The events at which something ends with a fault begin with one of this cause, which arose under
`stack`. -/
def Arises (events : List Event) (cause : Cause) (stack : List String) : Prop :=
  ∃ before ev after f, events = before ++ ev :: after ∧ Calm before ∧ ev.fault? = some f ∧
    f.cause = cause ∧ stack = cause.active ev.context.frame.calls

theorem Arises.after {events earlier : List Event} {cause : Cause} {stack : List String}
    (calm : Calm earlier) (h : Arises events cause stack) :
    Arises (earlier ++ events) cause stack := by
  obtain ⟨before, ev, after, f, rfl, calm', hf, hcause, hstack⟩ := h
  exact ⟨earlier ++ before, ev, after, f, (List.append_assoc ..).symm, calm.append calm', hf,
    hcause, hstack⟩

theorem Arises.before {events : List Event} {cause : Cause} {stack : List String}
    (h : Arises events cause stack) (later : List Event) :
    Arises (events ++ later) cause stack := by
  obtain ⟨before, ev, after, f, rfl, calm, hf, hcause, hstack⟩ := h
  exact ⟨before, ev, after ++ later, f, by simp, calm, hf, hcause, hstack⟩

/-- What is told of the fault that a run under `calls` with these events ends with: it is either of
the run's own, of the given kind, or has arisen in something that has ended with it. -/
def Told (own : List String → Fault → Prop) (calls : List String) (events : List Event) :
    Option Fault → Prop
  | none => Calm events
  | some f =>
    (Calm events ∧ own calls f) ∨
      ∃ stack, Arises events f.cause stack ∧ calls <:+ stack ∧ f.trace = traceFrom calls stack

theorem Told.after {own : List String → Fault → Prop} {calls : List String}
    {earlier events : List Event} {fault : Option Fault} (calm : Calm earlier)
    (h : Told own calls events fault) : Told own calls (earlier ++ events) fault := by
  cases fault with
  | none => exact calm.append h
  | some f =>
    rcases h with ⟨calm', hown⟩ | ⟨stack, arises, rest⟩
    · exact Or.inl ⟨calm.append calm', hown⟩
    · exact Or.inr ⟨stack, arises.after calm, rest⟩

theorem Told.mono {own own' : List String → Fault → Prop} {calls : List String}
    {events : List Event} {fault : Option Fault} (h : Told own calls events fault)
    (sub : ∀ f, own calls f → own' calls f) : Told own' calls events fault := by
  cases fault with
  | none => exact h
  | some f =>
    rcases h with ⟨calm, hown⟩ | later
    · exact Or.inl ⟨calm, sub f hown⟩
    · exact Or.inr later

/-- A fault that has arisen in code under `calls` itself. -/
def Fault.Ordinary (calls : List String) (f : Fault) : Prop :=
  f.trace = traceFrom calls (f.cause.active calls)

/-- A fault that arises when the body of this call has ended, and has not left the call. -/
def Fault.Leaving (label : String) (_ : List String) (f : Fault) : Prop :=
  f.cause = .loopControlInCall label ∧ f.trace = none

/-- A fault that leaves a call has a trace, which goes on from the calls outside. -/
theorem Told.leaveCall {label : String} {calls : List String} {events : List Event}
    {fault : Option Fault} (h : Told (Fault.Leaving label) (label :: calls) events fault) :
    Told Fault.Ordinary calls events (fault.map fun f => f.withTrace (label :: calls)) := by
  have beyond {stack : List String} (active : label :: calls <:+ stack) :
      traceFrom calls stack = some stack := by
    apply if_neg
    rintro rfl
    have longer := active.length_le
    rw [List.length_cons] at longer
    omega
  cases fault with
  | none => exact h
  | some f =>
    rcases h with ⟨calm, hcause, htrace⟩ | ⟨stack, arises, active, htrace⟩
    · refine Or.inl ⟨calm, ?_⟩
      have stack : f.cause.active calls = label :: calls := by
        rw [hcause]
        rfl
      change f.trace.or _ = traceFrom calls (f.cause.active calls)
      rw [htrace, stack, beyond List.suffix_rfl]
      rfl
    · refine Or.inr ⟨stack, arises, (List.suffix_cons label calls).trans active, ?_⟩
      change f.trace.or _ = traceFrom calls stack
      rw [htrace, beyond active, traceFrom]
      by_cases here : stack = label :: calls
      · rw [if_pos here, here]
        rfl
      · rw [if_neg here]
        rfl

theorem faultOf_mapError_withTrace {α : Type} (calls : List String) (r : Except Stop α) :
    faultOf (r.mapError (Stop.withTrace calls)) =
      (faultOf r).map fun f => f.withTrace calls := by
  rcases r with (_ | _ | _ | _ | _ | _) | a <;> rfl

/-- Code that stops by itself, before anything has ended with a fault. -/
theorem told_of_plain {α : Type} {calls : List String} {r : Except Stop α}
    (plain : ∀ s, r = .error s → s.Plain) : Told Fault.Ordinary calls [] (faultOf r) := by
  cases hfault : faultOf r with
  | none => exact Calm.nil
  | some f =>
    obtain ⟨htrace, hcause⟩ := plain (.fault f) (faultOf_eq_some.mp hfault)
    have active : f.cause.active calls = calls := by
      rw [Cause.active, hcause]
      rfl
    refine Or.inl ⟨.nil, ?_⟩
    rw [Fault.Ordinary, htrace, active, traceFrom, if_pos rfl]

namespace Run

variable {α β : Type}

/-- Started under `calls`, the run `x` has a history, `y` being `x` with notes, ends under `calls`,
and tells the truth about its fault. -/
def Tells (own : List String → Fault → Prop) (calls : List String) (x : Run α)
    (y : Scribe → Run α) : Prop :=
  ∀ c, c.frame.calls = calls → ∃ events, x.History y c events ∧
    (x c).2.frame.calls = calls ∧ Told own calls events (faultOf (x c).1)

namespace Tells

variable {own own' : List String → Fault → Prop} {calls : List String} {x : Run α}
  {y : Scribe → Run α}

/-- A run without events. -/
theorem silent (keeps : ∀ c, (x c).2.frame.calls = c.frame.calls)
    (told : ∀ c, Told own calls [] (faultOf (x c).1))
    (same : ∀ c note log, y note (c.withLog log) = ((x c).1, (x c).2.withLog log)) :
    Tells own calls x y :=
  fun c hc => ⟨[], same c, (keeps c).trans hc, told c⟩

theorem mono (hx : Tells own calls x y) (sub : ∀ f, own calls f → own' calls f) :
    Tells own' calls x y := by
  intro c hc
  obtain ⟨events, history, kept, told⟩ := hx c hc
  exact ⟨events, history, kept, told.mono sub⟩

theorem stop {s : Stop} (h : ∀ f, s = .fault f → own calls f) :
    Tells own calls (Run.stop s : Run α) fun _ => Run.stop s := by
  refine silent (fun _ => rfl) (fun _ => ?_) fun _ _ _ => rfl
  cases s with
  | fault f => exact Or.inl ⟨.nil, h f rfl⟩
  | _ => exact Calm.nil

theorem pure (a : α) : Tells own calls (Pure.pure a) fun _ => Pure.pure a :=
  silent (fun _ => rfl) (fun _ => Calm.nil) fun _ _ _ => rfl

theorem bind {f : α → Run β} {g : Scribe → α → Run β} (hx : Tells own calls x y)
    (hf : ∀ a, Tells own calls (f a) fun note => g note a) :
    Tells own calls (x >>= f) fun note => y note >>= g note := by
  intro c hc
  obtain ⟨events, history, kept, told⟩ := hx c hc
  rcases hr : x c with ⟨r, c'⟩
  rw [hr] at kept told
  cases r with
  | error stop =>
    refine ⟨events, history.bind_error hr, ?_⟩
    rw [bind_apply, hr]
    exact ⟨kept, told⟩
  | ok a =>
    obtain ⟨more, history', kept', told'⟩ := hf a c' kept
    refine ⟨events ++ more, history.bind_ok hr history', ?_⟩
    rw [bind_apply, hr]
    exact ⟨kept', told'.after told⟩

/-- The context is read; what follows must not look at the log. -/
theorem get {f : Context → Run α} {g : Scribe → Context → Run α}
    (hg : ∀ note c log, g note (Context.withLog c log) = g note c)
    (hf : ∀ c, c.frame.calls = calls → Tells own calls (f c) fun note => g note c) :
    Tells own calls (MonadState.get >>= f) fun note => MonadState.get >>= g note := by
  intro c hc
  obtain ⟨events, history, told⟩ := hf c hc c hc
  exact ⟨events, history.get hg, told⟩

/-- Only the way of ending is changed. -/
theorem onResult {own' : List String → Fault → Prop} (ρ : Except Stop α → Except Stop β)
    (hρ : ∀ events r, Told own calls events (faultOf r) → Told own' calls events (faultOf (ρ r)))
    (hx : Tells own calls x y) :
    Tells own' calls (fun c => (ρ (x c).1, (x c).2))
      fun note c => (ρ (y note c).1, (y note c).2) := by
  intro c hc
  obtain ⟨events, history, kept, told⟩ := hx c hc
  exact ⟨events, history.onResult fun _ => ρ, kept, hρ events _ told⟩

theorem atLine (line : Nat) (own_line : ∀ f, own calls f → own calls (f.withLine line))
    (hx : Tells own calls x y) :
    Tells own calls (x.atLine line) fun note => (y note).atLine line := by
  simp only [Run.atLine, mapStop_eq]
  refine hx.onResult _ fun events r told => ?_
  rcases r with (_ | f | _ | _ | _ | _) | a
  case error.fault =>
    rcases told with ⟨calm, hown⟩ | later
    · exact Or.inl ⟨calm, own_line f hown⟩
    · exact Or.inr later
  all_goals exact told

theorem attempt (hx : Tells own calls x y) :
    Tells own calls x.attempt fun note => (y note).attempt := by
  simp only [attempt_eq]
  refine hx.onResult _ fun events r told => ?_
  rcases r with (_ | _ | _ | _ | _ | _) | a <;> exact told

theorem resume (r : Except (Value × List String) α) :
    Tells own calls (Run.resume r) fun _ => Run.resume r := by
  cases r with
  | ok a => exact pure a
  | error e => exact stop nofun

/-- Code in another frame under the same calls. -/
theorem inFrame {enter leave : Frame → Frame} (entered : ∀ f, (enter f).calls = f.calls)
    (left : ∀ f, (leave f).calls = f.calls) (hx : Tells own calls x y) :
    Tells own calls (Run.inFrame enter leave x) fun note => Run.inFrame enter leave (y note) := by
  intro c hc
  obtain ⟨events, history, kept, told⟩ :=
    hx { c with frame := enter c.frame } ((entered c.frame).trans hc)
  exact ⟨events, history.inFrame leave, (left _).trans kept, told⟩

theorem debug (env : Environment) (line : Unit → String) :
    Tells own calls (Run.debug env line) fun _ => Run.debug env.quiet line := by
  refine silent (fun c => ?_) (fun c => ?_) fun c note log => ?_
  all_goals cases hd : env.debug <;> simp only [Run.debug, hd]
  · rfl
  · rfl
  · exact Calm.nil
  · exact Calm.nil
  · rfl
  · rfl

theorem assign (env : Environment) (name : String) (v : Value) :
    Tells own calls (Run.assign env name v) fun _ => Run.assign env.quiet name v := by
  refine get (fun _ _ _ => rfl) fun c _ => ?_
  cases c.frame.scope with
  | none =>
    exact (debug env _).bind fun _ => silent (fun _ => rfl) (fun _ => Calm.nil) fun _ _ _ => rfl
  | some scope =>
    exact (debug env _).bind fun _ => silent (fun _ => rfl) (fun _ => Calm.nil) fun _ _ _ => rfl

/-- The body of a call: on its way out a fault gets the calls that were active where it arose, among
them the call itself. -/
theorem called (label : String) (scope : Scope) (receiver : Option Receiver)
    (hx : ∀ inner, Tells (Fault.Leaving label) inner x y) :
    Tells Fault.Ordinary calls (x.called label scope receiver)
      fun note => (y note).called label scope receiver := by
  intro c hc
  obtain ⟨events, history, kept, told⟩ :=
    hx (label :: calls) { c with frame := c.frame.calling label scope receiver }
      (congrArg (List.cons label) hc)
  have traced := history.onResult fun f => Except.mapError (Stop.withTrace f.calls)
  simp only [Run.called, tracing_eq]
  refine ⟨events, traced.inFrame Frame.leavingCall, congrArg List.tail kept, ?_⟩
  rw [inFrame_apply]
  dsimp only
  rw [faultOf_mapError_withTrace, kept]
  exact told.leaveCall

/-- With a note at its end, a run's own fault has arisen in what has ended with it. -/
theorem noting {before : Moment} (after : Except Stop α → Moment)
    (starts : ∀ c : Context, (c.event before).fault? = none)
    (ends : ∀ (c : Context) r, (c.event (after r)).fault? = faultOf r)
    (hx : Tells Fault.Ordinary calls x y) :
    Tells (fun _ _ => False) calls x fun note => Run.noting note before after (y note) := by
  intro c hc
  obtain ⟨events, history, kept, told⟩ := hx c hc
  refine ⟨_, history.noting before after, kept, ?_⟩
  have first : Calm [c.event before] := by
    intro ev hev
    rw [List.mem_singleton.mp hev]
    exact starts c
  have last := ends (x c).2 (x c).1
  apply Told.after first
  cases hfault : faultOf (x c).1 with
  | none =>
    rw [hfault] at told last
    refine Calm.append told fun ev hev => ?_
    rw [List.mem_singleton.mp hev]
    exact last
  | some f =>
    rw [hfault] at told last
    refine Or.inr ?_
    rcases told with ⟨calm, htrace⟩ | ⟨stack, arises, active, htrace⟩
    · refine ⟨f.cause.active calls, ⟨events, _, [], f, rfl, calm, last, rfl, ?_⟩, ?_, htrace⟩
      · exact congrArg f.cause.active kept.symm
      · exact List.suffix_append _ _
    · exact ⟨stack, arises.before _, active, htrace⟩

end Tells

end Run

/-- The relation of a run to the same with notes, when it tells the truth about its fault. -/
def telling : RunRelation Scribe :=
  fun _ _ x y => ∀ calls, x.Tells Fault.Ordinary calls y

open Run in
theorem telling_basic (env : Environment) : telling.Basic env false where
  pure a _ := Tells.pure a
  stop plain _ := Tells.silent (fun _ => rfl)
    (fun _ => told_of_plain fun _ h => Except.error.inj h ▸ plain) fun _ _ _ => rfl
  bind hx hf calls := Tells.bind (hx calls) fun a => hf a calls
  get blind hf calls := Tells.get (fun note c log => blind note c c.frame.imports log c.output)
    fun c _ => hf c calls
  step {_ _ x} blind _ keeps plain _ := by
    refine Tells.silent (fun c => congrArg Frame.calls (keeps c).1)
      (fun c => told_of_plain (plain c)) fun c _ log => ?_
    have himports : (x c).2.frame.imports = c.frame.imports := by rw [(keeps c).1]
    have noted : (x c).2.restack c.frame.imports log = (x c).2.withLog log := by
      rw [← himports]
      rfl
    exact (blind c c.frame.imports log).trans (congrArg (Prod.mk _) noted)
  debug line _ := Tells.debug env line
  atLine line hx calls := Tells.atLine line (fun _ h => h) (hx calls)
  assign name v _ := Tells.assign env name v
  own _ _ := Tells.silent (fun _ => rfl) (fun _ => Calm.nil) fun _ _ _ => rfl
  enter _ hx calls := Tells.inFrame (fun _ => rfl) (fun _ => rfl) (hx calls)

/-- No fault is of the run's own: each has arisen in something that has ended with it. -/
def noOwn : List String → Fault → Prop :=
  fun _ _ => False

/-- Of the faults of an expression or statement, none is left that it has not ended with. -/
structure Evaluators.Tell (k : Evaluators) (k' : Scribe → Evaluators) : Prop where
  eval (e : Expr) (calls : List String) :
    (k.eval e).Tells noOwn calls fun note => (k' note).eval e
  exec (s : Stmt) (calls : List String) :
    (k.exec s).Tells noOwn calls fun note => (k' note).exec s
  bound (note : Scribe) : (k' note).bound = k.bound

section Rules

open Run

variable {k : Evaluators} {k' : Scribe → Evaluators} (hk : k.Tell k') (env : Environment)
  {calls : List String}

include hk

include env in
theorem Evaluators.Tell.related : k.Related telling k' where
  eval _ e calls := (hk.eval e calls).mono fun _ => False.elim
  exec s calls := (hk.exec s calls).mono fun _ => False.elim
  loop hc hb ha := by
    simp only [hk.bound]
    exact (telling_basic env).loop _ hc hb ha

theorem Evaluators.Tell.execAll (ss : List Stmt) :
    Tells noOwn calls (k.execAll ss) fun note => (k' note).execAll ss := by
  induction ss with
  | nil => exact .pure _
  | cons s ss ih =>
    refine (hk.exec s calls).bind fun outcome => ?_
    cases outcome with
    | normal => exact ih
    | returning v => exact .pure _
    | breaking => exact .pure _
    | continuing => exact .pure _

/-- The only fault that arises in a call itself is the one for loop control that leaves its body. -/
theorem tells_invokes : telling.Invokes env false k k' := by
  refine (telling_basic env).invokes fun _ label scope receiver body line calls => ?_
  refine Tells.called label scope receiver fun inner => ?_
  have block : Tells (Fault.Leaving label) inner (k.execBlock body)
      fun note => (k' note).execBlock body :=
    (hk.execAll body.statements).mono fun _ => False.elim
  refine block.bind fun outcome => ?_
  have left : Tells (Fault.Leaving label) inner
      (Run.faultAt (.loopControlInCall label) line : Run Value)
      fun _ => Run.faultAt (.loopControlInCall label) line := by
    refine Tells.stop ?_
    rintro f ⟨⟩
    exact ⟨rfl, rfl⟩
  cases outcome with
  | normal => exact .pure _
  | returning v => exact .pure _
  | breaking => exact left
  | continuing => exact left

theorem tells_importModule (module : String) (line : Nat) :
    Tells Fault.Ordinary calls (importModule env k module line)
      fun note => importModule env.quiet (k' note) module line := by
  have basic := telling_basic env
  refine Tells.bind (basic.findModule (p := fun _ => True) module line calls) fun m => ?_
  refine Tells.get (fun _ _ _ => rfl) fun c hc => ?_
  refine Tells.bind (basic.refuseIf (p := fun _ => True) _ rfl line calls) fun _ => ?_
  refine (Tells.debug env _).bind fun _ => ?_
  refine Tells.bind (basic.parseLogged (p := fun _ => True) m.2 calls) fun program => ?_
  have inner := basic.execAll (hk.related env) program.statements calls
  refine Tells.bind (Tells.inFrame (fun _ => rfl) (fun _ => rfl) inner) fun outcome => ?_
  exact basic.moduleOutcome (p := fun _ => True) module line outcome calls

theorem tells_execStep (s : Stmt) :
    Tells Fault.Ordinary calls (execStep env k s) fun note => execStep env.quiet (k' note) s := by
  have basic := telling_basic env
  refine basic.execStep (hk.related env) (fun transfer calls => ?_) calls
  cases s with
  | throwValue value line =>
    refine Tells.bind ((hk.related env).eval (fun _ => True) value calls) fun v => ?_
    refine Tells.get (fun _ _ _ => rfl) fun c _ => (Tells.debug env _).bind fun _ => ?_
    exact Tells.stop nofun
  | tryBlock body handlers line =>
    exact basic.execTry (hk.related env) (fun hx calls => (hx calls).attempt)
      (fun r calls => Tells.resume r) body handlers calls
  | importModule module line => exact tells_importModule hk env module line
  | _ => cases transfer

end Rules

/-- By induction on the budget. -/
theorem evaluators_tell (env : Environment) (n : Nat) :
    (evaluators env n).Tell fun note => noted env.quiet note n := by
  have basic := telling_basic env
  have evaluated {e : Expr} {calls : List String} {x : Run Value} {y : Scribe → Run Value}
      (h : x.Tells Fault.Ordinary calls y) :
      x.Tells noOwn calls fun note => Run.noting note (.evaluating e) (.evaluated e) (y note) :=
    h.noting _ (fun _ => rfl) fun _ _ => rfl
  have executed {s : Stmt} {calls : List String} {x : Run Outcome} {y : Scribe → Run Outcome}
      (h : x.Tells Fault.Ordinary calls y) :
      x.Tells noOwn calls fun note => Run.noting note (.executing s) (.executed s) (y note) :=
    h.noting _ (fun _ => rfl) fun _ _ => rfl
  induction n with
  | zero =>
    have spent {α : Type} (calls : List String) :
        Run.Tells Fault.Ordinary calls (Run.stop .exhausted : Run α) fun _ => Run.stop .exhausted :=
      .stop (by rintro f ⟨⟩)
    exact ⟨fun _ calls => evaluated (spent calls), fun _ calls => executed (spent calls),
      fun _ => rfl⟩
  | succ n ih =>
    refine ⟨fun e calls => evaluated ?_, fun s calls => ?_, fun _ => rfl⟩
    · exact basic.evalStep (p := fun _ => True) (ih.related env) (tells_invokes ih env) e calls
    · have step : Run.Tells Fault.Ordinary calls (execStep env (evaluators env n) s) fun note =>
          execStep env.quiet (noted env.quiet note n) s := tells_execStep ih env s
      exact executed (step.atLine s.line fun _ h => h)

/-- Of a run from `c`, with the same run with notes and with marked values: its traces are the call
stacks of the contexts in which values were thrown and faults arose. -/
structure Run.TracesTrue {α : Type} (x : Run α) (withNotes : Scribe → Run α)
    (withMarks : Mark → Run α) (c : Context) : Prop where
  raised {v : Value} {trace : List String} {c' : Context} :
    x c = (.error (.raised v trace), c') →
    c.frame.calls <:+ trace ∧ ∃ d : Context, d.frame.calls = trace ∧
      ∀ mark, withMarks mark c = (.error (.raised v (mark d)), c')
  unraised : (∀ v trace, (x c).1 ≠ .error (.raised v trace)) → ∀ mark, withMarks mark c = x c
  fault {f : Fault} {c' : Context} :
    x c = (.error (.fault f), c') →
    ∃ events stack, x.History withNotes c events ∧ Arises events f.cause stack ∧
      c.frame.calls <:+ stack ∧ f.trace = traceFrom c.frame.calls stack

theorem Run.TracesTrue.intro {α : Type} {x : Run α} {withNotes : Scribe → Run α}
    {withMarks : Mark → Run α} {c : Context} (tells : x.Tells noOwn c.frame.calls withNotes)
    (marks : x.Marks c.frame.calls withMarks) : x.TracesTrue withNotes withMarks c := by
  obtain ⟨_, ends⟩ := marks c rfl
  refine ⟨fun h => ?_, fun h => ?_, fun h => ?_⟩
  · rw [h] at ends
    cases ends with
    | thrown active ends => exact ⟨active, _, rfl, ends⟩
    | other unraised _ => exact absurd rfl (unraised _ _)
  · rcases hr : x c with ⟨r, c'⟩
    rw [hr] at ends h
    cases ends with
    | thrown => exact absurd rfl (h _ _)
    | other _ ends => exact ends
  · obtain ⟨events, history, _, told⟩ := tells c rfl
    rw [h] at told
    rcases told with ⟨_, own⟩ | ⟨stack, arises, active, htrace⟩
    · exact own.elim
    · exact ⟨events, stack, history, arises, active, htrace⟩

/-- For every expression and every statement, on every budget and from every context: a thrown value
carries the call stack of the context it was thrown in, which goes on from that of the run's own
context; and a fault has a trace if and only if more calls were active where it arose than when the
run began, in which case the trace lists all of them. The fault for a wrong number of arguments
arises in the context of the caller. -/
theorem traces_tell_the_truth (env : Environment) (n : Nat) (c : Context) :
    (∀ e, (eval env n e).TracesTrue (fun note => evalNoted env.quiet note n e)
      (fun mark => evalMarked env mark n e) c) ∧
    (∀ s, (exec env n s).TracesTrue (fun note => execNoted env.quiet note n s)
      (fun mark => execMarked env mark n s) c) ∧
    ∀ k label (f : Function) args receiver line, f.params.length ≠ args.length →
      invoke env k label f args receiver line c =
        (.error (.fault (.onLine (.argumentCount label f.params.length args.length) line)), c) := by
  have tells := evaluators_tell env n
  have marks := evaluators_mark env n
  refine ⟨fun e => ?_, fun s => ?_, fun k label f args receiver line h => ?_⟩
  · exact .intro (tells.eval e _) (marks.eval (fun _ => True) e _)
  · exact .intro (tells.exec s _) (marks.exec s _)
  · have refused : (f.params.length != args.length) = true := bne_iff_ne.mpr h
    rw [invoke, Run.bind_apply, refused]
    rfl

private def noModules : Environment := ⟨⟨"", []⟩, none, 9, 9, false⟩

/-- A function that throws, and one that calls it in a `try` and once more in the `finally`. -/
private def throwing : Context :=
  { Context.initial "" with
    functions := ⟨[
      ("f", ⟨[], ⟨[.throwValue (.null 1) 1], 1⟩⟩),
      ("g", ⟨[], ⟨[.tryBlock ⟨[.simple (.expr (.call "f" [] 2) 2)], 2⟩
        (.finallyOnly ⟨[.tryBlock ⟨[.simple (.expr (.call "f" [] 3) 3)], 3⟩
          (.catchOnly "e" ⟨[], 3⟩) 3], 3⟩) 2], 2⟩⟩)]⟩ }

/-- The value that `g` is left with was thrown in `f`, called from `g`. -/
theorem traces_tell_the_truth_finally :
    (eval noModules 12 (.call "g" [] 4) throwing).1 = .error (.raised .null ["f", "g"]) ∧
    ∃ d : Context, d.frame.calls = ["f", "g"] ∧
      ∀ mark, (evalMarked noModules mark 12 (.call "g" [] 4) throwing).1 =
        .error (.raised .null (mark d)) := by
  have run : (eval noModules 12 (.call "g" [] 4) throwing).1 =
      .error (.raised .null ["f", "g"]) := rfl
  rcases ended : eval noModules 12 (.call "g" [] 4) throwing with ⟨r, c'⟩
  rw [ended] at run
  obtain rfl : r = .error (.raised .null ["f", "g"]) := run
  obtain ⟨_, d, hd, ends⟩ :=
    ((traces_tell_the_truth noModules 12 throwing).1 (.call "g" [] 4)).raised ended
  refine ⟨rfl, d, hd, fun mark => ?_⟩
  rw [ends mark]

end ClassScript
