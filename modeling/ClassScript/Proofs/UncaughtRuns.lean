import ClassScript.Proofs.UntouchedBindings

/-!
# Evaluation without `catch`

Beside evaluation there is one that has no `catch`: the first value that is thrown ends it at once,
past every `catch` and `finally`. It differs from evaluation in the rule for `try` and nowhere else.

Two things can happen to a run. Either a `throw` statement is executed, and without `catch` the run
ends by a thrown value; or nothing on the way ends by a thrown value, and without `catch` the run is
the same. This is a relation between a run, the runs that keep notes of its history and the one
without `catch`, and the rules of evaluation keep it. Faults do not come into it: none of them is a
thrown value, and none is made into one.
-/

namespace ClassScript

def Stop.isRaised : Stop → Bool
  | .raised _ _ => true
  | _ => false

/-- The code has ended by a thrown value. -/
def raises {α : Type} : Except Stop α → Bool
  | .ok _ => false
  | .error stop => stop.isRaised

def Stmt.isThrow : Stmt → Bool
  | .throwValue _ _ => true
  | _ => false

namespace Event

/-- An expression, a statement or a run has just ended by a thrown value. -/
def raises (ev : Event) : Bool :=
  match ev.moment with
  | .evaluated _ result => ClassScript.raises result
  | .executed _ result | .ended result => ClassScript.raises result
  | _ => false

/-- A `throw` statement is about to be executed. -/
def throws (ev : Event) : Bool :=
  match ev.moment with
  | .executing s => s.isThrow
  | _ => false

end Event

/-- Executes a `try` statement without its `catch`. -/
def execUncaughtTry (k : Evaluators) (body : Block) (handlers : Handlers) : Run Outcome := do
  let first ← k.execBlock body
  match handlers.final? with
  | none => return first
  | some final =>
    match ← k.execBlock final with
    | .normal => return first
    | outcome => return outcome

/-- Executes a statement without `catch`, given the evaluation of its parts. -/
def execUncaughtStep (env : Environment) (k : Evaluators) : Stmt → Run Outcome
  | .tryBlock body handlers _ => execUncaughtTry k body handlers
  | s => execStep env k s

mutual

/-- `eval` without `catch`. -/
def evalUncaught (env : Environment) : Nat → Expr → Run Value
  | 0, _ => Run.stop .exhausted
  | n + 1, e => evalStep env ⟨evalUncaught env n, execUncaught env n, n⟩ e

/-- `exec` without `catch`. -/
def execUncaught (env : Environment) : Nat → Stmt → Run Outcome
  | 0, _ => Run.stop .exhausted
  | n + 1, s =>
    Run.atLine s.line (execUncaughtStep env ⟨evalUncaught env n, execUncaught env n, n⟩ s)

end

/-- The evaluators without `catch`. -/
def uncaught (env : Environment) (n : Nat) : Evaluators :=
  ⟨evalUncaught env n, execUncaught env n, n⟩

theorem execUncaughtStep_eq (env : Environment) (k : Evaluators) {s : Stmt}
    (h : ∀ body handlers line, s ≠ .tryBlock body handlers line) :
    execUncaughtStep env k s = execStep env k s := by
  cases s with
  | tryBlock body handlers line => exact absurd rfl (h body handlers line)
  | _ => rfl

/-- The evaluators that keep notes, and for no scribe those without `catch`. -/
def variants (env : Environment) (n : Nat) (i : Option Scribe) : Evaluators where
  eval := match i with
    | some note => evalNoted env note n
    | none => evalUncaught env n
  exec := match i with
    | some note => execNoted env note n
    | none => execUncaught env n
  bound := n

/-- The variants of a statement, given those of the evaluation of its parts. -/
def executeVariants (env : Environment) (k' : Option Scribe → Evaluators) (s : Stmt) :
    Option Scribe → Run Outcome
  | some note => execStep env (k' (some note)) s
  | none => execUncaughtStep env (k' none) s

theorem executeVariants_eq (env : Environment) (k' : Option Scribe → Evaluators) {s : Stmt}
    (h : ∀ body handlers line, s ≠ .tryBlock body handlers line) :
    executeVariants env k' s = fun i => execStep env (k' i) s := by
  funext i
  cases i with
  | some note => rfl
  | none => exact execUncaughtStep_eq env (k' none) h

namespace Run

variable {α β : Type}

/-- From `c` the run `z`, which has no `catch`, ends by a thrown value. One of the events is a
`throw`, or else the condition `A` holds. -/
structure CutShort (A : Prop) (z : Run α) (c : Context) (events : List Event) : Prop where
  throws : A ∨ ∃ ev ∈ events, ev.throws = true
  raises : ∀ log, ClassScript.raises (z (c.withLog log)).1 = true

/-- From `c` neither `x` nor anything on its way ends by a thrown value, and `z` does the same. -/
structure Undisturbed (x z : Run α) (c : Context) (events : List Event) : Prop where
  events : ∀ ev ∈ events, ev.raises = false
  result : ClassScript.raises (x c).1 = false
  same : ∀ log, z (c.withLog log) = ((x c).1, (x c).2.withLog log)

/-- From every context `x` has a history, the variants of `x` for scribes being `x` with notes, and
the one for no scribe, which has no `catch`, is cut short by a `throw` or does the same as `x`. The
condition `A` stands for a `throw` that `x` is a part of. -/
def RaisesByThrow (A : Prop) (x : Run α) (y : Option Scribe → Run α) : Prop :=
  ∀ c, ∃ events, x.History (fun note => y (some note)) c events ∧
    (CutShort A (y none) c events ∨ Undisturbed x (y none) c events)

theorem raises_bind {x : Run α} {f : α → Run β} {c : Context}
    (h : ClassScript.raises (x c).1 = true) : ClassScript.raises ((x >>= f) c).1 = true := by
  rw [bind_apply]
  rcases hx : x c with ⟨_ | _, c'⟩
  · rw [hx] at h
    exact h
  · rw [hx] at h
    cases h

theorem History.of_eq {x x' : Run α} {y y' : Scribe → Run α} {c : Context} {events : List Event}
    (h : x.History y c events) (hx : x' c = x c)
    (hy : ∀ note log, y' note (c.withLog log) = y note (c.withLog log)) :
    x'.History y' c events := by
  intro note log
  rw [hy, hx]
  exact h note log

theorem Undisturbed.of_eq {x x' z : Run α} {c : Context} {events : List Event}
    (h : Undisturbed x z c events) (hx : x' c = x c) : Undisturbed x' z c events := by
  refine ⟨h.events, ?_, fun log => ?_⟩
  · rw [hx]
    exact h.result
  · rw [hx]
    exact h.same log

section Sequence

variable {A : Prop} {x z : Run α} {f g : α → Run β} {c c' : Context} {events more : List Event}
  {a : α}

theorem CutShort.bind (h : CutShort A z c events) (more : List Event) :
    CutShort A (z >>= g) c (events ++ more) := by
  refine ⟨h.throws.imp_right ?_, fun log => raises_bind (h.raises log)⟩
  rintro ⟨ev, hev, throws⟩
  exact ⟨ev, List.mem_append_left more hev, throws⟩

theorem Undisturbed.bind_cutShort (h : Undisturbed x z c events) (hx : x c = (.ok a, c'))
    (rest : CutShort A (g a) c' more) : CutShort A (z >>= g) c (events ++ more) := by
  refine ⟨rest.throws.imp_right ?_, fun log => ?_⟩
  · rintro ⟨ev, hev, throws⟩
    exact ⟨ev, List.mem_append_right events hev, throws⟩
  · rw [bind_apply, h.same log, hx]
    exact rest.raises log

theorem Undisturbed.bind_error {stop : Stop} (h : Undisturbed x z c events)
    (hx : x c = (.error stop, c')) : Undisturbed (x >>= f) (z >>= g) c events := by
  have result := h.result
  rw [hx] at result
  have ends : (x >>= f) c = (.error stop, c') := by rw [bind_apply, hx]
  refine ⟨h.events, by rw [ends]; exact result, fun log => ?_⟩
  rw [bind_apply, h.same log, hx, ends]

theorem Undisturbed.bind_ok (h : Undisturbed x z c events) (hx : x c = (.ok a, c'))
    (rest : Undisturbed (f a) (g a) c' more) :
    Undisturbed (x >>= f) (z >>= g) c (events ++ more) := by
  have goesOn : (x >>= f) c = f a c' := by rw [bind_apply, hx]
  refine ⟨List.forall_mem_append.mpr ⟨h.events, rest.events⟩, ?_, fun log => ?_⟩
  · rw [goesOn]
    exact rest.result
  · rw [bind_apply, h.same log, hx, goesOn]
    exact rest.same log

end Sequence

namespace RaisesByThrow

variable {A : Prop} {x : Run α} {y : Option Scribe → Run α}

/-- A run without events that does not throw. -/
theorem silent (unraised : ∀ c, ClassScript.raises (x c).1 = false)
    (same : ∀ i c log, y i (Context.withLog c log) = ((x c).1, (x c).2.withLog log)) :
    RaisesByThrow A x y := by
  intro c
  refine ⟨[], fun note log => same (some note) c log, Or.inr ⟨?_, unraised c, same none c⟩⟩
  exact fun ev hev => nomatch hev

theorem pure (a : α) : RaisesByThrow A (Pure.pure a) fun _ => Pure.pure a :=
  silent (fun _ => rfl) fun _ _ _ => rfl

theorem stop {s : Stop} (h : s.isRaised = false) :
    RaisesByThrow A (Run.stop s : Run α) fun _ => Run.stop s :=
  silent (fun _ => h) fun _ _ _ => rfl

theorem bind {f : α → Run β} {g : Option Scribe → α → Run β} (hx : RaisesByThrow A x y)
    (hf : ∀ a, RaisesByThrow A (f a) fun i => g i a) :
    RaisesByThrow A (x >>= f) fun i => y i >>= g i := by
  intro c
  obtain ⟨events, history, h⟩ := hx c
  rcases hr : x c with ⟨stop | a, c'⟩
  · refine ⟨events, history.bind_error hr, ?_⟩
    rcases h with cut | undisturbed
    · exact Or.inl (List.append_nil events ▸ cut.bind [])
    · exact Or.inr (undisturbed.bind_error hr)
  · obtain ⟨more, history', h'⟩ := hf a c'
    refine ⟨events ++ more, history.bind_ok hr history', ?_⟩
    rcases h with cut | undisturbed
    · exact Or.inl (cut.bind more)
    · rcases h' with cut | rest
      · exact Or.inl (undisturbed.bind_cutShort hr cut)
      · exact Or.inr (undisturbed.bind_ok hr rest)

/-- The context is read; what follows must not look at the log. -/
theorem get {f : Context → Run α} {g : Option Scribe → Context → Run α}
    (hg : ∀ i c log, g i (Context.withLog c log) = g i c)
    (hf : ∀ c, RaisesByThrow A (f c) fun i => g i c) :
    RaisesByThrow A (MonadState.get >>= f) fun i => MonadState.get >>= g i := by
  intro c
  obtain ⟨events, history, h⟩ := hf c c
  have read (log : List String) : (MonadState.get >>= g none) (c.withLog log) =
      g none c (c.withLog log) := by
    change g none (c.withLog log) (c.withLog log) = _
    rw [hg none c log]
  refine ⟨events, history.get fun note c log => hg (some note) c log, h.imp ?_ ?_⟩
  · intro cut
    refine ⟨cut.throws, fun log => ?_⟩
    dsimp only
    rw [read]
    exact cut.raises log
  · intro undisturbed
    refine ⟨undisturbed.events, undisturbed.result, fun log => ?_⟩
    exact (read log).trans (undisturbed.same log)

/-- Only the way of ending is changed, and no thrown value is made or taken away. -/
theorem onResult (ρ : Frame → Except Stop α → Except Stop β)
    (kept : ∀ f r, ClassScript.raises (ρ f r) = ClassScript.raises r) (hx : RaisesByThrow A x y) :
    RaisesByThrow A (fun c => (ρ (x c).2.frame (x c).1, (x c).2))
      fun i c => (ρ (y i c).2.frame (y i c).1, (y i c).2) := by
  intro c
  obtain ⟨events, history, h⟩ := hx c
  refine ⟨events, history.onResult ρ, h.imp ?_ ?_⟩
  · intro cut
    exact ⟨cut.throws, fun log => (kept _ _).trans (cut.raises log)⟩
  · intro undisturbed
    refine ⟨undisturbed.events, (kept _ _).trans undisturbed.result, fun log => ?_⟩
    dsimp only
    rw [undisturbed.same log]
    rfl

theorem mapStop {g : Stop → Stop} (kept : ∀ s, (g s).isRaised = s.isRaised)
    (hx : RaisesByThrow A x y) : RaisesByThrow A (x.mapStop g) fun i => (y i).mapStop g := by
  simp only [mapStop_eq]
  refine hx.onResult (fun _ => Except.mapError g) fun _ r => ?_
  cases r with
  | ok a => rfl
  | error s => exact kept s

theorem atLine (line : Nat) (hx : RaisesByThrow A x y) :
    RaisesByThrow A (x.atLine line) fun i => (y i).atLine line :=
  hx.mapStop fun s => by cases s <;> rfl

theorem tracing (hx : RaisesByThrow A x y) :
    RaisesByThrow A x.tracing fun i => (y i).tracing := by
  simp only [tracing_eq]
  refine hx.onResult (fun f => Except.mapError (Stop.withTrace f.calls)) fun _ r => ?_
  rcases r with (_ | _ | _ | _ | _ | _) | _ <;> rfl

theorem inFrame (enter leave : Frame → Frame) (hx : RaisesByThrow A x y) :
    RaisesByThrow A (Run.inFrame enter leave x) fun i => Run.inFrame enter leave (y i) := by
  intro c
  obtain ⟨events, history, h⟩ := hx { c with frame := enter c.frame }
  refine ⟨events, history.inFrame leave, h.imp ?_ ?_⟩
  · intro cut
    exact ⟨cut.throws, cut.raises⟩
  · intro undisturbed
    refine ⟨undisturbed.events, undisturbed.result, fun log => ?_⟩
    have inner : y none { c.withLog log with frame := enter (c.withLog log).frame } = _ :=
      undisturbed.same log
    change Run.inFrame enter leave (y none) (c.withLog log) = _
    rw [inFrame_apply, inner]
    rfl

theorem debug (env : Environment) (line : Unit → String) :
    RaisesByThrow A (Run.debug env line) fun _ => Run.debug env.quiet line := by
  refine silent (fun c => ?_) fun i c log => ?_
  all_goals cases hd : env.debug <;> simp only [Run.debug, hd]
  all_goals rfl

theorem assign (env : Environment) (name : String) (v : Value) :
    RaisesByThrow A (Run.assign env name v) fun _ => Run.assign env.quiet name v := by
  refine silent (fun c => ?_) fun i c log => ?_
  · cases hs : c.frame.scope <;> cases hd : env.debug <;>
      simp only [Run.assign, Run.debug, bind_apply, get_apply, hs, hd] <;> rfl
  · have hscope : (c.withLog log).frame.scope = c.frame.scope := rfl
    cases hs : c.frame.scope <;> cases hd : env.debug <;>
      simp only [Run.assign, Run.debug, bind_apply, get_apply, hscope, hs, hd] <;> rfl

/-- The variants with the moments before and after, for those that keep notes. -/
def noted (before : Moment) (after : Except Stop α → Moment) (y : Option Scribe → Run α) :
    Option Scribe → Run α
  | some note => Run.noting note before after (y (some note))
  | none => y none

/-- The moment after tells whether the run in between has ended by a thrown value, and the moment
before whether it is a `throw`. -/
theorem noting {before : Moment} {after : Except Stop α → Moment}
    (starts : ∀ c : Context, (c.event before).raises = false)
    (ends : ∀ (c : Context) r, (c.event (after r)).raises = ClassScript.raises r)
    (throws : A → ∀ c : Context, (c.event before).throws = true)
    (hx : RaisesByThrow A x y) : RaisesByThrow False x (noted before after y) := by
  intro c
  obtain ⟨events, history, h⟩ := hx c
  refine ⟨_, history.noting before after, h.imp ?_ ?_⟩
  · intro cut
    refine ⟨Or.inr ?_, cut.raises⟩
    rcases cut.throws with hA | ⟨ev, hev, hthrows⟩
    · exact ⟨_, List.mem_cons_self, throws hA c⟩
    · exact ⟨ev, List.mem_cons_of_mem _ (List.mem_append_left _ hev), hthrows⟩
  · intro undisturbed
    refine ⟨List.forall_mem_cons.mpr ⟨starts c, ?_⟩, undisturbed.result, undisturbed.same⟩
    refine List.forall_mem_append.mpr ⟨undisturbed.events, List.forall_mem_singleton.mpr ?_⟩
    exact (ends _ _).trans undisturbed.result

/-- To throw a value is part of a `throw`. -/
theorem throwValue (env : Environment) (v : Value) :
    RaisesByThrow True (ClassScript.throwValue env v)
      fun _ => ClassScript.throwValue env.quiet v := by
  intro c
  have quiet (log : List String) : ClassScript.throwValue env.quiet v (c.withLog log) =
      (.error (.raised v c.frame.calls), c.withLog log) := rfl
  obtain ⟨log', ends⟩ : ∃ log', ClassScript.throwValue env v c =
      (.error (.raised v c.frame.calls), c.withLog log') := by
    cases hd : env.debug <;>
      simp only [ClassScript.throwValue, Run.debug, bind_apply, get_apply, hd]
    exacts [⟨c.log, rfl⟩, ⟨_, rfl⟩]
  refine ⟨[], fun note log => ?_, Or.inl ⟨Or.inl trivial, fun log => ?_⟩⟩
  · rw [ends]
    exact quiet log
  · exact congrArg (fun r => ClassScript.raises r.1) (quiet log)

theorem weaken (hx : RaisesByThrow False x y) : RaisesByThrow A x y := by
  intro c
  obtain ⟨events, history, h⟩ := hx c
  refine ⟨events, history, h.imp_left fun cut => ⟨Or.inr ?_, cut.raises⟩⟩
  exact cut.throws.resolve_left id

end RaisesByThrow

end Run

/-- The relation of a run to its variants with notes and without `catch`. -/
def raisingByThrow : RunRelation (Option Scribe) :=
  fun _ _ x y => x.RaisesByThrow False y

theorem Stop.Plain.unraised {s : Stop} (h : s.Plain) : s.isRaised = false := by
  cases s with
  | raised v trace => cases h
  | _ => rfl

open Run in
theorem raisingByThrow_basic (env : Environment) : raisingByThrow.Basic env false where
  pure a := .pure a
  stop h := .stop h.unraised
  bind hx hf := hx.bind hf
  get blind hf := .get (fun i c log => blind i c c.frame.imports log c.output) hf
  step {_ _ x} blind _ keeps plain := by
    refine .silent (fun c => ?_) fun _ c log => ?_
    · cases hr : (x c).1 with
      | ok a => rfl
      | error s => exact (plain c s hr).unraised
    · have himports : (x c).2.frame.imports = c.frame.imports := by rw [(keeps c).1]
      have noted : (x c).2.restack c.frame.imports log = (x c).2.withLog log := by
        rw [← himports]
        rfl
      exact (blind c c.frame.imports log).trans (congrArg (Prod.mk _) noted)
  debug line := .debug env line
  assign name v := .assign env name v
  own _ := .silent (fun _ => rfl) fun _ _ _ => rfl
  enter _ hx := hx.inFrame _ _
  atLine line hx := hx.atLine line

section Rules

open Run

variable {k : Evaluators} {k' : Option Scribe → Evaluators}
  (hk : k.Related raisingByThrow k')

include hk

theorem raisesByThrow_invokes (env : Environment) : raisingByThrow.Invokes env false k k' := by
  have basic := raisingByThrow_basic env
  refine basic.invokes fun p label scope receiver body line => ?_
  refine .inFrame _ _ (.tracing ?_)
  refine .bind (basic.execBlock hk body) fun outcome => ?_
  cases outcome with
  | normal => exact .pure _
  | returning v => exact .pure _
  | breaking => exact .stop rfl
  | continuing => exact .stop rfl

theorem raisesByThrow_importModule (env : Environment) (module : String) (line : Nat) :
    RaisesByThrow False (importModule env k module line)
      fun i => importModule env.quiet (k' i) module line := by
  have basic := raisingByThrow_basic env
  refine .bind (basic.findModule (p := InCall) module line) fun m => ?_
  refine .get (fun _ _ _ => rfl) fun c => ?_
  refine .bind (basic.refuseIf (p := InCall) _ rfl _) fun _ => .bind (.debug _ _) fun _ => ?_
  refine .bind (basic.parseLogged (p := InCall) _) fun program => ?_
  refine .bind (.inFrame _ _ (basic.execAll hk program.statements)) fun outcome => ?_
  exact basic.moduleOutcome (p := InCall) module line outcome

theorem raisesByThrow_execUncaughtTry (env : Environment) (body : Block) (handlers : Handlers) :
    RaisesByThrow False (execUncaughtTry k body handlers)
      fun i => execUncaughtTry (k' i) body handlers := by
  have basic := raisingByThrow_basic env
  refine .bind (basic.execBlock hk body) fun first => ?_
  cases handlers.final? with
  | none => exact .pure _
  | some final =>
    refine .bind (basic.execBlock hk final) fun outcome => ?_
    cases outcome <;> exact .pure _

end Rules

theorem raises_eq_true {α : Type} {x : Run α} {c : Context} (h : raises (x c).1 = true) :
    ∃ v trace c', x c = (.error (.raised v trace), c') := by
  rcases hx : x c with ⟨(_ | _) | _, c'⟩ <;> rw [hx] at h
  case error.raised v trace => exact ⟨v, trace, c', rfl⟩
  all_goals cases h

theorem Run.caught_eq {α : Type} {r : Except Stop α} (h : raises r = false) :
    caught r = r.map Except.ok := by
  rcases r with (_ | _) | _
  case error.raised => cases h
  all_goals rfl

/-- Where the body of a `try` does not end by a thrown value, the `catch` is not looked at. -/
theorem execTry_eq_uncaught (env : Environment) (k : Evaluators) {body : Block}
    (handlers : Handlers) {c : Context} (h : raises (k.execBlock body c).1 = false) :
    execTry env k body handlers c = execUncaughtTry k body handlers c := by
  rw [execTry, execUncaughtTry, Run.bind_apply, Run.bind_apply, Run.attempt_eq]
  dsimp only
  rw [Run.caught_eq h]
  rcases k.execBlock body c with ⟨stop | outcome, c'⟩
  · rfl
  · dsimp only [Except.map]
    cases handlers.final? <;> rfl

section Rules

open Run

variable {env : Environment} {k : Evaluators} {k' : Option Scribe → Evaluators}
  (hk : k.Related raisingByThrow k') (traced : k.Related sparing fun note => k' (some note))

omit hk in
include traced in
/-- If the body of a `try` ends by a thrown value, the history goes on with what is done then. -/
theorem history_try_of_raised {body : Block} {handlers : Handlers} {c : Context}
    {first : List Event}
    (inBody : (k.execBlock body).History (fun note => (k' (some note)).execBlock body) c first)
    (hr : raises (k.execBlock body c).1 = true) :
    ∃ events, (execTry env k body handlers).History
      (fun note => execTry env.quiet (k' (some note)) body handlers) c (first ++ events) := by
  obtain ⟨v, trace, c', hc⟩ := raises_eq_true hr
  have inAttempt : (k.execBlock body).attempt.History
      (fun note => ((k' (some note)).execBlock body).attempt) c first := by
    simp only [attempt_eq]
    exact inBody.onResult fun _ => caught
  have caughtHere : (k.execBlock body).attempt c = (.ok (.error (v, trace)), c') := by
    rw [attempt_eq]
    dsimp only
    rw [hc]
    rfl
  have closed := sparing_closed env
  obtain ⟨events, after, _⟩ :=
    closed.afterBody traced closed.attempt closed.resume handlers (.error (v, trace)) c'
  exact ⟨events, inAttempt.bind_ok caughtHere after⟩

include hk traced

/-- If the body ends by a thrown value, then without `catch` so does the statement. If not, the
`catch` is not looked at. -/
theorem raisesByThrow_try (body : Block) (handlers : Handlers) (line : Nat) :
    RaisesByThrow False (execStep env k (.tryBlock body handlers line))
      (executeVariants env.quiet k' (.tryBlock body handlers line)) := by
  intro c
  obtain ⟨first, inBody, hbody⟩ := (raisingByThrow_basic env).execBlock hk body c
  cases hr : raises (k.execBlock body c).1 with
  | true =>
    -- of what follows the body no more is known than that it has a history, and no more is needed
    obtain ⟨events, history⟩ := history_try_of_raised traced inBody hr
    refine ⟨_, history, hbody.imp (fun cut => cut.bind events) fun undisturbed => ?_⟩
    rw [undisturbed.result] at hr
    cases hr
  | false =>
    obtain ⟨events, history, h⟩ := raisesByThrow_execUncaughtTry hk env body handlers c
    have same := execTry_eq_uncaught env k handlers hr
    have calm (note : Scribe) (log : List String) :
        raises ((k' (some note)).execBlock body (c.withLog log)).1 = false := by
      have noted := inBody note log
      dsimp only at noted
      rw [noted]
      exact hr
    refine ⟨events, history.of_eq same fun note log => ?_, h.imp_right fun run => run.of_eq same⟩
    exact execTry_eq_uncaught env.quiet (k' (some note)) handlers (calm note log)

theorem raisesByThrow_execVariants (s : Stmt) :
    RaisesByThrow False (Run.atLine s.line (execStep env k s))
      (RaisesByThrow.noted (.executing s) (.executed s)
        fun i => Run.atLine s.line (executeVariants env.quiet k' s i)) := by
  have basic := raisingByThrow_basic env
  have other (h : ∀ body handlers line, s ≠ .tryBlock body handlers line)
      (step : RaisesByThrow False (execStep env k s) fun i => execStep env.quiet (k' i) s) :
      RaisesByThrow False (execStep env k s) (executeVariants env.quiet k' s) := by
    rw [executeVariants_eq env.quiet k' h]
    exact step
  by_cases hthrow : ∃ value line, s = .throwValue value line
  · obtain ⟨value, line, rfl⟩ := hthrow
    have step : RaisesByThrow True (execStep env k (.throwValue value line))
        fun i => execStep env.quiet (k' i) (.throwValue value line) :=
      (hk.eval InCall value).weaken.bind fun v => .throwValue env v
    rw [executeVariants_eq env.quiet k' (s := .throwValue value line) nofun]
    exact .noting (fun _ => rfl) (fun _ _ => rfl) (fun _ _ => rfl) (step.atLine _)
  · have step : RaisesByThrow False (execStep env k s) (executeVariants env.quiet k' s) := by
      cases s with
      | tryBlock body handlers line => exact raisesByThrow_try hk traced body handlers line
      | throwValue value line => exact absurd ⟨value, line, rfl⟩ hthrow
      | importModule module line =>
        exact other nofun (raisesByThrow_importModule hk env module line)
      | _ => exact other nofun (basic.execStep hk nofun)
    exact .noting (fun _ => rfl) (fun _ _ => rfl) False.elim (step.atLine _)

end Rules

open Run in
/-- By induction on the budget. -/
theorem evaluators_raise_by_throw (env : Environment) (n : Nat) :
    (evaluators env n).Related raisingByThrow (variants env.quiet n) := by
  have basic := raisingByThrow_basic env
  have noting {e : Expr} {x : Run Value} {y : Option Scribe → Run Value}
      (hx : RaisesByThrow False x y) :
      RaisesByThrow False x (RaisesByThrow.noted (.evaluating e) (.evaluated e) y) :=
    .noting (fun _ => rfl) (fun _ _ => rfl) False.elim hx
  induction n with
  | zero =>
    refine ⟨fun _ e => noting (.stop rfl), fun s => ?_, basic.loop 0⟩
    have stopped : RaisesByThrow False (Run.stop .exhausted)
        (RaisesByThrow.noted (.executing s) (.executed s) fun _ => Run.stop .exhausted) :=
      .noting (fun _ => rfl) (fun _ _ => rfl) False.elim (.stop rfl)
    exact stopped
  | succ n ih =>
    have traced := evaluators_spare env n
    have calls := raisesByThrow_invokes ih env
    exact ⟨fun p e => noting (basic.evalStep (p := p) ih calls e),
      raisesByThrow_execVariants ih traced, basic.loop (n + 1)⟩

theorem raisesByThrow_execProgram (env : Environment) (n : Nat) (p : Program) :
    Run.RaisesByThrow False (execProgram env n p)
      fun i => (variants env.quiet n i).execProgram p := by
  have basic := raisingByThrow_basic env
  refine .bind (basic.execAll (evaluators_raise_by_throw env n) p.statements) fun outcome => ?_
  cases outcome with
  | normal => exact .pure _
  | returning v => exact .pure _
  | breaking => exact .stop rfl
  | continuing => exact .stop rfl

/-- If no `throw` is executed, or if without `catch` the program does not end by a thrown value,
then nothing on its way does. -/
theorem execProgram_undisturbed {env : Environment} {n : Nat} {p : Program} {c : Context}
    {events : List Event}
    (history : (execProgram env n p).History (fun note => (noted env.quiet note n).execProgram p) c
      events)
    (calm : (∀ ev ∈ events, ev.throws = false) ∨
      raises ((uncaught env.quiet n).execProgram p c).1 = false) :
    (execProgram env n p).Undisturbed ((uncaught env.quiet n).execProgram p) c events := by
  obtain ⟨events', history', h⟩ := raisesByThrow_execProgram env n p c
  cases history.unique history'
  refine h.resolve_left fun cut => ?_
  rcases calm with unthrown | unraised
  · obtain ⟨ev, hev, throws⟩ := cut.throws.resolve_left id
    rw [unthrown ev hev] at throws
    cases throws
  · exact absurd ((cut.raises c.log).symm.trans unraised) nofun

end ClassScript
