import ClassScript.Proofs.DisciplineRules
import ClassScript.Proofs.HandedDownLines
import ClassScript.Proofs.NodeLines

/-!
# The lines of faults

A session reads texts: the sources of its runs and the modules that these import. Functions and
classes outlive the run that has declared them, so the code of a run may have been read long before.
When a run is reported for a fault, the report gives a line, and the history of the run shows whose
it is: an expression or a statement that ended with the fault, and that stands in the source, in a
module imported on the way, or in the declaration of a function or class that the session has kept
from an earlier text. There is one exception, a `break` or `continue` that reaches the top level of
the source; its fault has no line.
-/

namespace ClassScript

/-- The text of the module that is about to be imported. -/
def Event.importedText? (env : Environment) (ev : Event) : Option String :=
  match ev.moment with
  | .executing (.importModule module _) => (modulePath? env module).bind env.files.readText?
  | _ => none

/-- The texts of the modules that a run has imported. -/
def importedTexts (env : Environment) (events : List Event) : List String :=
  events.filterMap (Event.importedText? env)

/-- The context holds a function or a class that the statement declares. -/
def Context.Holds (c : Context) (s : Stmt) : Prop :=
  (∃ name f, c.functions.get? name = some f ∧ s.DeclaresFunction name f) ∨
    ∃ (i : Nat) (d : ClassDef), c.classes.classes[i]? = some d ∧ s.DeclaresClass d

namespace Moment

variable {roots roots' : Stmt → Prop} {m : Moment}

/-- The code that is being run stands inside of the given statements. -/
def RunsIn (roots : Stmt → Prop) : Moment → Prop
  | .evaluating e | .evaluated e _ => e.Within roots
  | .executing s | .executed s _ => s.Within roots
  | .began | .ended _ => False

theorem RunsIn.exists_root (h : m.RunsIn roots) : ∃ d, roots d ∧ m.RunsIn (· = d) := by
  cases m with
  | began => cases h
  | ended result => cases h
  | evaluating e => exact Expr.Within.exists_root h
  | evaluated e result => exact Expr.Within.exists_root h
  | executing s => exact Stmt.Within.exists_root h
  | executed s result => exact Stmt.Within.exists_root h

theorem RunsIn.trans (h : m.RunsIn roots) (sub : ∀ d, roots d → d.Within roots') :
    m.RunsIn roots' := by
  cases m with
  | began => cases h
  | ended result => cases h
  | evaluating e => exact Expr.Within.trans h sub
  | evaluated e result => exact Expr.Within.trans h sub
  | executing s => exact Stmt.Within.trans h sub
  | executed s result => exact Stmt.Within.trans h sub

theorem Blames.runsIn {cause : Cause} {n : Nat} (h : m.Blames cause n)
    (keeps : m.Keeps (codeWithin roots)) : m.RunsIn roots := by
  cases m with
  | evaluated e result => exact keeps
  | executed s result =>
    obtain ⟨_, within⟩ := keeps
    exact within
  | _ => cases h

/-- The line that is blamed is the line of a token of the text that the code stands in. -/
theorem Blames.hasLine {cause : Cause} {n : Nat} {text : String} (h : m.Blames cause n)
    (within : m.RunsIn (topLevel text)) : HasLine text n := by
  cases m with
  | evaluated e result =>
    rcases result with (_ | f | _ | _ | _ | _) | v
    case error.fault =>
      obtain ⟨_, _, rfl⟩ := h
      exact Expr.Within.hasLine within
    all_goals cases h
  | executed s result =>
    rcases result with (_ | f | _ | _ | _ | _) | outcome
    case error.fault => exact Stmt.Within.hasLine within h.2.2
    all_goals cases h
  | _ => cases h

end Moment

theorem importsCode_of_roots {env : Environment} {events : List Event} {roots : Stmt → Prop}
    (h : ∀ text ∈ importedTexts env events, ∀ d, topLevel text d → roots d) :
    ∀ ev ∈ events, ev.ImportsCode env (codeWithin roots) := by
  intro ev hev module line path text p hmoment hpath htext hparse s hs
  have read : ev.importedText? env = some text := by
    rw [Event.importedText?, hmoment]
    simp [hpath, htext]
  exact .root (h text (List.mem_filterMap.mpr ⟨ev, hev, read⟩) s ⟨_, p, hparse, hs⟩)

namespace Session

/-- A session that has come from its start by runs, with the texts it has read: sources and the
modules they have imported. Between two runs the module files, the place they are looked up in and
the limits may change. -/
inductive Read : Session → List String → Prop
  | start (files : Files) (directory : Option String) (captures : Bool) (input : String) :
    Read (start files directory captures input) []
  | change {s : Session} {texts : List String} (files : Files) (directory : Option String)
    (captures : Bool) (limits : Limits) :
    Read s texts → Read { s with files, directory, captures, limits } texts
  | run {s : Session} {texts : List String} {events : List Event} (debug : Bool)
    (source : String) : Read s texts → s.Passes debug source events →
    Read (s.run debug source).2 (texts ++ source :: importedTexts (s.environment debug) events)

/-- The text that the code running at a moment has been read from: the source of the run, a module
that the run imports, or an earlier text with the declaration of a function or class that the
session holds when the run begins. -/
inductive Origin (s : Session) (texts : List String) (debug : Bool) (source : String)
    (events : List Event) (m : Moment) : String → Prop
  | source : m.RunsIn (topLevel source) → Origin s texts debug source events m source
  | imported {text : String} : text ∈ importedTexts (s.environment debug) events →
    m.RunsIn (topLevel text) → Origin s texts debug source events m text
  | earlier {text : String} {d : Stmt} : text ∈ texts → d.Within (topLevel text) →
    s.context.Holds d → m.RunsIn (· = d) → Origin s texts debug source events m text

/-- All functions and classes of a session are declared in texts that it has read: by induction over
its runs. -/
theorem Read.stores {s : Session} {texts : List String} (h : s.Read texts) :
    s.context.Stores (codeWithin fun d => ∃ text ∈ texts, topLevel text d) := by
  induction h with
  | start files directory captures input => exact Context.stores_initial _ input
  | change files directory captures limits _ ih => exact ih
  | @run s texts events debug source _ passes ih =>
    have before : s.context.Stores (codeWithin fun d => ∃ text ∈
        texts ++ source :: importedTexts (s.environment debug) events, topLevel text d) := by
      refine ih.mono fun _ d hd => Stmt.Within.trans hd ?_
      rintro d ⟨text, htext, hd⟩
      exact .root ⟨text, List.mem_append_left _ htext, hd⟩
    refine (run_obeys before (fun p hp d hd => .root ⟨source, by simp, _, p, hp, hd⟩)
      fun events' passes' => ?_).1
    cases passes'.unique passes
    exact importsCode_of_roots fun text htext d hd => ⟨text, by simp [htext], hd⟩

/-- Where the code of a run can come from. -/
def codeOf (s : Session) (texts : List String) (debug : Bool) (source : String)
    (events : List Event) (d : Stmt) : Prop :=
  topLevel source d ∨ (∃ text ∈ importedTexts (s.environment debug) events, topLevel text d) ∨
    s.context.Holds d ∧ ∃ text ∈ texts, d.Within (topLevel text)

/-- A declaration in one of the texts that a session has read. -/
theorem exists_text {texts : List String} {d : Stmt}
    (h : d.Within fun d => ∃ text ∈ texts, topLevel text d) :
    ∃ text ∈ texts, d.Within (topLevel text) := by
  obtain ⟨root, ⟨text, htext, hroot⟩, within⟩ := h.exists_root
  refine ⟨text, htext, within.trans ?_⟩
  rintro _ rfl
  exact .root hroot

theorem Read.stores_codeOf {s : Session} {texts : List String} (h : s.Read texts) (debug : Bool)
    (source : String) (events : List Event) :
    s.context.Stores (codeWithin (s.codeOf texts debug source events)) := by
  refine ⟨fun {name f} hf => ?_, fun {i cd} hd => ?_, h.stores.classes.known⟩
  · obtain ⟨l, d, within, declared⟩ := h.stores.functions hf
    have held : s.context.Holds d := Or.inl ⟨name, f, hf, declared⟩
    exact ⟨l, d, .root (Or.inr (Or.inr ⟨held, exists_text within⟩)), declared⟩
  · obtain ⟨l, d, within, declared⟩ := h.stores.classes.classes hd
    have held : s.context.Holds d := Or.inr ⟨i, cd, hd, declared⟩
    exact ⟨l, d, .root (Or.inr (Or.inr ⟨held, exists_text within⟩)), declared⟩

/-- A line that is blamed in code of the run is one of the text that the code has been read from. -/
theorem origin_of_blames {s : Session} {texts : List String} {debug : Bool} {source : String}
    {events : List Event} {m : Moment} {cause : Cause} {n : Nat} (blames : m.Blames cause n)
    (keeps : m.Keeps (codeWithin (s.codeOf texts debug source events))) :
    ∃ text, s.Origin texts debug source events m text ∧ HasLine text n := by
  obtain ⟨d, hd, within⟩ := (blames.runsIn keeps).exists_root
  have inText {text : String} (hd : d.Within (topLevel text)) : m.RunsIn (topLevel text) :=
    within.trans fun _ heq => heq ▸ hd
  rcases hd with hsource | ⟨text, htext, himported⟩ | ⟨held, text, htext, hearlier⟩
  · have runs := inText (.root hsource)
    exact ⟨source, .source runs, blames.hasLine runs⟩
  · have runs := inText (.root himported)
    exact ⟨text, .imported htext runs, blames.hasLine runs⟩
  · exact ⟨text, .earlier htext hearlier held within, blames.hasLine (inText hearlier)⟩

theorem exists_passes (s : Session) (debug : Bool) (source : String) :
    ∃ events, s.Passes debug source events := by
  obtain ⟨log, ⟨p, hparse, _⟩ | ⟨stop, hparse, _⟩⟩ :=
    parseLogged_result (s.environment debug) source s.fresh
  · obtain ⟨inner, history, _⟩ := obeys_execProgram (s.environment debug)
      (codeWithin fun _ => True) s.limits.steps p { s.fresh with log }
    exact ⟨_, .executed hparse rfl history⟩
  · exact ⟨_, .refused hparse⟩

/-- The program of the source ends with a `break` or `continue` outside of every loop, call and
module. -/
def EndsWithLoopControl (s : Session) (debug : Bool) (source : String) : Prop :=
  ∃ p c outcome, parseLogged (s.environment debug) source s.fresh = (.ok p, c) ∧
    ((evaluators (s.environment debug) s.limits.steps).execAll p.statements c).1 = .ok outcome ∧
    outcome.isLoopControl = true

end Session

/-- A fault that leaves a statement has a line. -/
theorem exec_fault_line {env : Environment} {n : Nat} {s : Stmt} {c : Context} {f : Fault}
    (h : (exec env n s c).1 = .error (.fault f)) : f.line ≠ none := by
  cases n with
  | zero => cases h
  | succ n =>
    rw [exec_succ, Run.atLine, Run.mapStop_eq] at h
    dsimp only at h
    rcases hr : (execStep env (evaluators env n) s c).1 with stop | outcome
    · rw [hr] at h
      cases stop with
      | fault raised =>
        cases h
        simp [Fault.withLine]
      | _ => cases h
    · rw [hr] at h
      cases h

theorem execAll_fault_line {env : Environment} {n : Nat} {ss : List Stmt} {c : Context} {f : Fault}
    (h : ((evaluators env n).execAll ss c).1 = .error (.fault f)) : f.line ≠ none := by
  induction ss generalizing c with
  | nil => cases h
  | cons s ss ih =>
    rw [Evaluators.execAll, Run.bind_apply] at h
    rcases hs : (evaluators env n).exec s c with ⟨stop | outcome, c'⟩
    · rw [hs] at h
      cases h
      have stopped : (exec env n s c).1 = .error (.fault f) := congrArg Prod.fst hs
      exact exec_fault_line stopped
    · rw [hs] at h
      cases outcome with
      | normal => exact ih h
      | _ => cases h

theorem Report.Shows.blamed {D : Discipline} {events : List Event} {r : Report} {n : Nat}
    (h : r.Shows (D.Allows (Traced (fun _ => False) events))) (fault : r.kind = some .fault)
    (line : r.line = some n) : ∃ cause, r.message = some (cause.kind ++ ": " ++ cause.message) ∧
      ∃ ev ∈ events, ev.moment.Blames cause n := by
  rcases h with ⟨output, v, rfl⟩ | ⟨output, source, stop, rfl, allowed⟩
  · cases fault
  · cases stop with
    | fault f => exact ⟨f.cause, rfl, (allowed.2 n line).resolve_left id⟩
    | malformed e => cases e <;> cases fault
    | _ => cases fault

namespace Session

variable {s : Session} {debug : Bool} {source : String}

/-- Loop control at the top level is a fault without a line. -/
theorem EndsWithLoopControl.report (h : s.EndsWithLoopControl debug source) :
    (s.run debug source).1.kind = some .fault ∧ (s.run debug source).1.line = none := by
  obtain ⟨p, c, outcome, hparse, hexec, control⟩ := h
  rcases hall : (evaluators (s.environment debug) s.limits.steps).execAll p.statements c with
    ⟨result, c'⟩
  rw [hall] at hexec
  cases hexec
  have stopped : execProgram (s.environment debug) s.limits.steps p c =
      (.error (.fault (.ofCause .loopControlAtTop)), c') := by
    rw [execProgram, Run.bind_apply, hall]
    cases outcome with
    | breaking => rfl
    | continuing => rfl
    | _ => cases control
  simp only [run, hparse, stopped]
  exact ⟨rfl, rfl⟩

/-- Every other fault has left a statement and has got a line there. -/
theorem endsWithLoopControl_of_no_line (fault : (s.run debug source).1.kind = some .fault)
    (noLine : (s.run debug source).1.line = none) : s.EndsWithLoopControl debug source := by
  obtain ⟨log, ⟨p, hparse, _⟩ | ⟨stop, hparse, refused⟩⟩ :=
    parseLogged_result (s.environment debug) source s.fresh
  · rcases hall : (evaluators (s.environment debug) s.limits.steps).execAll p.statements
      { s.fresh with log } with ⟨stop | outcome, c⟩
    · have stopped : execProgram (s.environment debug) s.limits.steps p { s.fresh with log } =
          (.error stop, c) := by
        rw [execProgram, Run.bind_apply, hall]
      simp only [run, hparse, stopped] at fault noLine
      cases stop with
      | fault f => exact absurd noLine (execAll_fault_line (congrArg Prod.fst hall))
      | malformed e => cases e <;> cases fault
      | _ => cases fault
    · cases hcontrol : outcome.isLoopControl with
      | true => exact ⟨p, _, outcome, hparse, congrArg Prod.fst hall, hcontrol⟩
      | false =>
        have ended : execProgram (s.environment debug) s.limits.steps p { s.fresh with log } =
            (.ok outcome, c) := by
          rw [execProgram, Run.bind_apply, hall]
          cases outcome with
          | normal => rfl
          | returning v => rfl
          | _ => cases hcontrol
        simp only [run, hparse, ended] at fault
        cases outcome <;> cases fault
  · simp only [run, hparse] at fault
    rcases refused with ⟨e | e, rfl⟩ | ⟨calls, rfl⟩ <;> cases fault

/-- A run of a session runs code that has been read, and its report gives no line that no event
blames. -/
theorem Read.run_traced {texts : List String} (read : s.Read texts) (debug : Bool)
    (source : String) :
    ∃ events, s.Passes debug source events ∧
      (s.run debug source).1.Shows ((codeWithin (s.codeOf texts debug source events)).Allows
        (Traced (fun _ => False) events)) ∧
      ∀ ev ∈ events, ev.moment.Keeps (codeWithin (s.codeOf texts debug source events)) := by
  obtain ⟨events, passes⟩ := s.exists_passes debug source
  have own (p : Program) (hp : parseSource s.limits.syntaxDepth source = .ok p) :
      (codeWithin (s.codeOf texts debug source events)).code false p.statements :=
    fun d hd => .root (Or.inl ⟨_, p, hp, hd⟩)
  have imports (events' : List Event) (passes' : s.Passes debug source events') :
      ∀ ev ∈ events', ev.ImportsCode (s.environment debug)
        (codeWithin (s.codeOf texts debug source events)) := by
    cases passes'.unique passes
    exact importsCode_of_roots fun text htext d hd => Or.inr (Or.inl ⟨text, htext, hd⟩)
  obtain ⟨_, events', passes', shows, keeps⟩ :=
    run_obeys (read.stores_codeOf debug source events) own imports
  cases passes'.unique passes
  exact ⟨events, passes, shows, keeps⟩

end Session

/-- Every fault has a line. In any session, with any module files and whatever has been run before,
a run that is reported for a fault is reported with a line, except when a `break` or `continue`
reaches the top level of its source, which is a fault without a line. The line belongs to an
expression or a statement that ended with the fault, and a token of the text that this was read from
stands on it: the source, a module that the run has imported, or an earlier text that declares the
function or class, held when the run began, whose code was running.

And a fault that is raised without a line of its own gets that of the innermost statement being
executed: evaluation is the same when every statement hands its line down and faults get it where
they are raised. -/
theorem fault_has_line {s : Session} {texts : List String} (read : s.Read texts) (debug : Bool)
    (source : String) :
    (s.EndsWithLoopControl debug source →
      (s.run debug source).1.kind = some .fault ∧ (s.run debug source).1.line = none) ∧
    ((s.run debug source).1.kind = some .fault → ¬ s.EndsWithLoopControl debug source →
      ∃ events cause line, s.Passes debug source events ∧
        (s.run debug source).1.message = some (cause.kind ++ ": " ++ cause.message) ∧
        (s.run debug source).1.line = some line ∧ ∃ ev ∈ events, ev.moment.Blames cause line ∧
          ∃ text, s.Origin texts debug source events ev.moment text ∧ HasLine text line) ∧
    ∀ n, (∀ stmt, exec (s.environment debug) n stmt = execLined (s.environment debug) n stmt) ∧
      ∀ line e, (eval (s.environment debug) n e).atLine line =
        evalLined (s.environment debug) n line e := by
  refine ⟨Session.EndsWithLoopControl.report, fun fault stays => ?_, lines_handed_down _⟩
  obtain ⟨events, passes, shows, keeps⟩ := read.run_traced debug source
  cases hline : (s.run debug source).1.line with
  | none => exact absurd (Session.endsWithLoopControl_of_no_line fault hline) stays
  | some line =>
    obtain ⟨cause, message, ev, hev, blames⟩ := shows.blamed fault hline
    have origin := Session.origin_of_blames blames (keeps ev hev)
    exact ⟨events, cause, line, passes, message, rfl, ev, hev, blames, origin⟩

private def asking : String := "function f()\ngetFields(\"C\");"

private def unasked : Session :=
  { Session.start (.ofList "" []) none true "" with limits := ⟨9, 9, 9⟩ }

/-- After the run of `asking`. -/
private def asked : Session :=
  { unasked with
    context := { Context.initial "" with
      functions := Bindings.empty.insert "f"
        ⟨[], .mk [.simple (.expr (.call "getFields" [.text "C" 2] 2) 2)] 2⟩ } }

/-- A function of an earlier source asks for the fields of a class that there is not. The line of
the fault is that of the statement in the function; the source of the run has no such line. -/
theorem fault_has_line_of_earlier_source :
    ∃ texts, asked.Read (asking :: texts) ∧ (asked.run false "f();").1.kind = some .fault ∧
      ∃ events cause, asked.Passes false "f();" events ∧
        (asked.run false "f();").1.message = some (cause.kind ++ ": " ++ cause.message) ∧
        (asked.run false "f();").1.line = some 2 ∧ ∃ ev ∈ events, ev.moment.Blames cause 2 ∧
          ∃ text, asked.Origin (asking :: texts) false "f();" events ev.moment text ∧
            HasLine text 2 := by
  have declared : scan asking = ⟨[⟨.keyword, "function", 1, 1⟩, ⟨.identifier, "f", 1, 10⟩,
      ⟨.lparen, "(", 1, 11⟩, ⟨.rparen, ")", 1, 12⟩, ⟨.identifier, "getFields", 2, 1⟩,
      ⟨.lparen, "(", 2, 10⟩, ⟨.string, "\"C\"", 2, 11⟩, ⟨.rparen, ")", 2, 14⟩,
      ⟨.separator, ";", 2, 15⟩], none⟩ := by decide +kernel
  have called : scan "f();" = ⟨[⟨.identifier, "f", 1, 1⟩, ⟨.lparen, "(", 1, 2⟩,
      ⟨.rparen, ")", 1, 3⟩, ⟨.separator, ";", 1, 4⟩], none⟩ := by decide +kernel
  have kept : (unasked.run false asking).2 = asked := by
    simp only [Session.run,
      parseLogged_apply (unasked.environment false) (tokenize_of_scan declared)]
    rfl
  have report : (asked.run false "f();").1.kind = some .fault ∧
      (asked.run false "f();").1.line = some 2 := by
    simp only [Session.run, parseLogged_apply (asked.environment false) (tokenize_of_scan called)]
    exact ⟨rfl, rfl⟩
  obtain ⟨before, passes⟩ := unasked.exists_passes false asking
  have start : unasked.Read [] := .change _ _ _ ⟨9, 9, 9⟩ (.start (.ofList "" []) none true "")
  have read := Session.Read.run false asking start passes
  rw [kept] at read
  obtain ⟨control, blamed, _⟩ := fault_has_line read false "f();"
  have stays : ¬ asked.EndsWithLoopControl false "f();" := by
    intro ends
    rw [(control ends).2] at report
    cases report.2
  obtain ⟨events, cause, line, passed, message, hline, found⟩ := blamed report.1 stays
  rw [report.2] at hline
  cases hline
  exact ⟨_, read, report.1, events, cause, passed, message, report.2, found⟩

end ClassScript
