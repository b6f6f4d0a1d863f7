import ClassScript.Session

/-!
# The history of a run

A statement about every step of a run is a statement about its history: the list of its events, each
a moment (before or after an expression is evaluated or a statement executed) with the context at
that moment. What the history of a run is can be read off a run that keeps notes. It follows the
same rules with the debug log put to another use: at every moment it writes a line about the event.
The history is the list that accounts for the notes, whatever is noted.

A session's history is that of its runs, one after another.
-/

namespace ClassScript

/-- A point of a run; the moment after an evaluation or execution has its result. -/
inductive Moment where
  | began
  | evaluating (e : Expr)
  | evaluated (e : Expr) (result : Except Stop Value)
  | executing (s : Stmt)
  | executed (s : Stmt) (result : Except Stop Outcome)
  | ended (result : Except Stop Outcome)

/-- A moment and the context at it, the debug log left out. -/
structure Event where
  moment : Moment
  context : Context

def Context.withLog (c : Context) (log : List String) : Context :=
  { c with log }

@[simp] theorem Context.withLog_withLog (c : Context) (log log' : List String) :
    (c.withLog log).withLog log' = c.withLog log' := rfl

/-- What happens in a context at a moment. -/
def Context.event (c : Context) (m : Moment) : Event :=
  ⟨m, c.withLog []⟩

@[simp] theorem Context.event_withLog (c : Context) (log : List String) (m : Moment) :
    (c.withLog log).event m = c.event m := rfl

/-- What is noted about an event. -/
abbrev Scribe := Event → String

def Context.note (note : Scribe) (m : Moment) (c : Context) : Context :=
  c.withLog (note (c.event m) :: c.log)

/-- Runs `x` with a note before and one after it. -/
def Run.noting {α : Type} (note : Scribe) (before : Moment) (after : Except Stop α → Moment)
    (x : Run α) : Run α :=
  fun c =>
    match x (c.note note before) with
    | (r, c') => (r, c'.note note (after r))

mutual

/-- `eval` with notes. -/
def evalNoted (env : Environment) (note : Scribe) : Nat → Expr → Run Value
  | 0, e => Run.noting note (.evaluating e) (.evaluated e) (Run.stop .exhausted)
  | n + 1, e =>
    Run.noting note (.evaluating e) (.evaluated e)
      (evalStep env ⟨evalNoted env note n, execNoted env note n, n⟩ e)

/-- `exec` with notes. -/
def execNoted (env : Environment) (note : Scribe) : Nat → Stmt → Run Outcome
  | 0, s => Run.noting note (.executing s) (.executed s) (Run.stop .exhausted)
  | n + 1, s =>
    Run.noting note (.executing s) (.executed s)
      (Run.atLine s.line (execStep env ⟨evalNoted env note n, execNoted env note n, n⟩ s))

end

/-- The evaluators that keep notes. -/
def noted (env : Environment) (note : Scribe) (n : Nat) : Evaluators :=
  ⟨evalNoted env note n, execNoted env note n, n⟩

/-- The rule for programs, with any evaluators. -/
def Evaluators.execProgram (k : Evaluators) (p : Program) : Run Outcome := do
  match ← k.execAll p.statements with
  | .breaking | .continuing => Run.stop (.fault (.ofCause .loopControlAtTop))
  | outcome => return outcome

theorem execProgram_eq (env : Environment) (n : Nat) (p : Program) :
    execProgram env n p = (evaluators env n).execProgram p := rfl

/-- The same without a debug log. -/
def Environment.quiet (env : Environment) : Environment :=
  { env with debug := false }

/-- From `c` the run `x` has the history `events`: with notes it ends in the same way, and its log
is made of the notes on these events in order. -/
def Run.History {α : Type} (x : Run α) (withNotes : Scribe → Run α) (c : Context)
    (events : List Event) : Prop :=
  ∀ note log, withNotes note (c.withLog log) =
    ((x c).1, (x c).2.withLog ((events.map note).reverse ++ log))

/-- Lists that look alike through every note are equal. -/
theorem eq_of_notes {events events' : List Event}
    (h : ∀ note : Scribe, events.map note = events'.map note) : events = events' := by
  classical
  refine List.ext_getElem ?_ fun i hi hi' => ?_
  · simpa using congrArg List.length (h fun _ => "")
  -- a note that tells the event at this place from all others
  · have hsame := congrArg (·[i]?) (h fun ev => if ev = events[i] then "" else " ")
    simp only [List.getElem?_map, List.getElem?_eq_getElem hi, List.getElem?_eq_getElem hi',
      Option.map_some, Option.some.injEq, if_true] at hsame
    by_cases heq : events'[i] = events[i]
    · exact heq.symm
    · rw [if_neg heq] at hsame
      exact absurd hsame (by decide)

/-- A run has one history. -/
theorem Run.History.unique {α : Type} {x : Run α} {y : Scribe → Run α} {c : Context}
    {events events' : List Event} (h : x.History y c events) (h' : x.History y c events') :
    events = events' := by
  refine eq_of_notes fun note => ?_
  have hlog := congrArg (fun r => r.2.log) ((h note []).symm.trans (h' note []))
  simpa [Context.withLog] using hlog

namespace Run

variable {α β : Type}

theorem History.bind_error {x : Run α} {y : Scribe → Run α} {f : α → Run β}
    {g : Scribe → α → Run β} {c c' : Context} {events : List Event} {stop : Stop}
    (h : x.History y c events) (hx : x c = (.error stop, c')) :
    (x >>= f).History (fun note => y note >>= g note) c events := by
  intro note log
  change (y note >>= g note) (c.withLog log) = _
  rw [bind_apply, h note log, bind_apply, hx]

theorem History.bind_ok {x : Run α} {y : Scribe → Run α} {f : α → Run β}
    {g : Scribe → α → Run β} {c c' : Context} {events more : List Event} {a : α}
    (h : x.History y c events) (hx : x c = (.ok a, c'))
    (hf : (f a).History (fun note => g note a) c' more) :
    (x >>= f).History (fun note => y note >>= g note) c (events ++ more) := by
  intro note log
  change (y note >>= g note) (c.withLog log) = _
  rw [bind_apply, h note log, bind_apply, hx]
  refine (hf note _).trans ?_
  rw [List.map_append, List.reverse_append, List.append_assoc]

theorem noting_apply (note : Scribe) (before : Moment) (after : Except Stop α → Moment) (x : Run α)
    (c : Context) :
    Run.noting note before after x c = ((x (c.note note before)).1,
      (x (c.note note before)).2.note note (after (x (c.note note before)).1)) := rfl

/-- The context is read; what follows must not look at the log. -/
theorem History.get {f : Context → Run α} {g : Scribe → Context → Run α} {c : Context}
    {events : List Event} (hg : ∀ note c log, g note (Context.withLog c log) = g note c)
    (h : (f c).History (fun note => g note c) c events) :
    (MonadState.get >>= f).History (fun note => MonadState.get >>= g note) c events := by
  intro note log
  change g note (c.withLog log) (c.withLog log) = _
  rw [hg note c log]
  exact h note log

/-- Only the way of ending is changed, perhaps by a look at the frame. -/
theorem History.onResult {x : Run α} {y : Scribe → Run α} {c : Context} {events : List Event}
    (ρ : Frame → Except Stop α → Except Stop β) (h : x.History y c events) :
    Run.History (fun c => (ρ (x c).2.frame (x c).1, (x c).2))
      (fun note c => (ρ (y note c).2.frame (y note c).1, (y note c).2)) c events := by
  intro note log
  dsimp only
  rw [h note log]
  rfl

theorem History.inFrame {x : Run α} {y : Scribe → Run α} {enter : Frame → Frame} {c : Context}
    {events : List Event} (leave : Frame → Frame)
    (h : x.History y { c with frame := enter c.frame } events) :
    (Run.inFrame enter leave x).History (fun note => Run.inFrame enter leave (y note)) c
      events := by
  intro note log
  have inner : y note { c.withLog log with frame := enter (c.withLog log).frame } = _ := h note log
  change Run.inFrame enter leave (y note) (c.withLog log) = _
  rw [inFrame_apply, inner]
  rfl

/-- The events of a run between the moment before it and the moment after it. -/
theorem History.noting {x : Run α} {y : Scribe → Run α} {c : Context} {events : List Event}
    (before : Moment) (after : Except Stop α → Moment) (h : x.History y c events) :
    x.History (fun note => Run.noting note before after (y note)) c
      (c.event before :: (events ++ [(x c).2.event (after (x c).1)])) := by
  intro note log
  have inner : y note ((c.withLog log).note note before) = _ :=
    h note (note (c.event before) :: log)
  change Run.noting note before after (y note) (c.withLog log) = _
  rw [noting_apply, inner]
  simp [Context.note, Context.withLog, Context.event]

end Run

namespace Session

/-- The history of running a source: its beginning, what executing its program passes through, and
its end. A source that cannot be parsed has nothing in between. -/
inductive Passes (s : Session) (debug : Bool) (source : String) : List Event → Prop
  | refused {stop : Stop} {c : Context}
    (parsing : parseLogged (s.environment debug) source s.fresh = (.error stop, c)) :
    Passes s debug source [s.fresh.event .began, c.event (.ended (.error stop))]
  | executed {p : Program} {c c' : Context} {result : Except Stop Outcome} {inner : List Event}
    (parsing : parseLogged (s.environment debug) source s.fresh = (.ok p, c))
    (execution : execProgram (s.environment debug) s.limits.steps p c = (result, c'))
    (history : (execProgram (s.environment debug) s.limits.steps p).History
      (fun note => (noted (s.environment debug).quiet note s.limits.steps).execProgram p) c inner) :
    Passes s debug source
      (s.fresh.event .began :: (inner ++ [c'.event (.ended result)]))

/-- A session that has come, by runs of any sources, through the listed events. Between two runs the
module files, the place they are looked up in and the limits may change. -/
inductive Lived : Session → List Event → Prop
  | start (files : Files) (directory : Option String) (captures : Bool) (input : String) :
    Lived (start files directory captures input) []
  | change {s : Session} {past : List Event} (files : Files) (directory : Option String)
    (captures : Bool) (limits : Limits) :
    Lived s past → Lived { s with files, directory, captures, limits } past
  | run {s : Session} {past events : List Event} (debug : Bool) (source : String) :
    Lived s past → s.Passes debug source events → Lived (s.run debug source).2 (past ++ events)

theorem Passes.unique {s : Session} {debug : Bool} {source : String} {events events' : List Event}
    (h : s.Passes debug source events) (h' : s.Passes debug source events') : events = events' := by
  cases h with
  | refused parsing =>
    cases h' with
    | refused parsing' => cases parsing.symm.trans parsing'; rfl
    | executed parsing' => cases parsing.symm.trans parsing'
  | executed parsing execution history =>
    cases h' with
    | refused parsing' => cases parsing.symm.trans parsing'
    | executed parsing' execution' history' =>
      cases parsing.symm.trans parsing'
      cases execution.symm.trans execution'
      rw [history.unique history']

end Session

end ClassScript
