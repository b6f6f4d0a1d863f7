import ClassScript.Proofs.FrameRestoration
import ClassScript.Proofs.ImportInlining
import ClassScript.Proofs.OutputPrefix

/-!
# A session is one script

A source whose statements are those of two others does in one run what the two do one after the
other. The first of them has to end normally; when it ends in any other way the statements after it
are not reached, and the source does what the first of them does alone. Lines aside, report, output
and all that a later run can find are the same.

Between the two runs the session comes back to the top level and the output of the first is put
aside. The frame of a program is the one from before anyway, and code does not see the output before
its own.
-/

namespace ClassScript

namespace Evaluators

variable {k : Evaluators} {ss : List Stmt} {c d : Context}

/-- After statements that end normally the rest runs as it would on its own. -/
theorem execAll_append_of_normal (h : k.execAll ss c = (.ok .normal, d)) (ts : List Stmt) :
    k.execAll (ss ++ ts) c = k.execAll ts d := by
  induction ss generalizing c with
  | nil =>
    cases h
    rfl
  | cons s ss ih =>
    rw [execAll, Run.bind_apply] at h
    rw [List.cons_append, execAll, Run.bind_apply]
    rcases hs : k.exec s c with ⟨stop | outcome, c'⟩
    · rw [hs] at h
      cases h
    · rw [hs] at h
      cases outcome with
      | normal => exact ih h
      | returning v => cases h
      | breaking => cases h
      | continuing => cases h

/-- Statements that end in any other way are the last. -/
theorem execAll_append_of_not_normal (h : (k.execAll ss c).1 ≠ .ok .normal) (ts : List Stmt) :
    k.execAll (ss ++ ts) c = k.execAll ss c := by
  induction ss generalizing c with
  | nil => exact absurd rfl h
  | cons s ss ih =>
    rw [execAll, Run.bind_apply] at h
    rw [List.cons_append, execAll, execAll, Run.bind_apply, Run.bind_apply]
    rcases hs : k.exec s c with ⟨stop | outcome, c'⟩
    · rfl
    · rw [hs] at h
      cases outcome with
      | normal => exact ih h
      | returning v => rfl
      | breaking => rfl
      | continuing => rfl

end Evaluators

section Program

variable {env : Environment} {n : Nat} {p : Program} {c d : Context}

/-- A program ends normally when its statements do. -/
theorem execProgram_normal_iff : execProgram env n p c = (.ok .normal, d) ↔
    (evaluators env n).execAll p.statements c = (.ok .normal, d) := by
  rw [execProgram, Run.bind_apply]
  rcases (evaluators env n).execAll p.statements c with ⟨stop | outcome, c'⟩
  · constructor <;> intro h <;> cases h
  · cases outcome with
    | normal => exact Iff.rfl
    | returning v => constructor <;> intro h <;> cases h
    | breaking => constructor <;> intro h <;> cases h
    | continuing => constructor <;> intro h <;> cases h

theorem execProgram_append_of_normal (h : execProgram env n p c = (.ok .normal, d))
    (ts : List Stmt) : execProgram env n ⟨p.statements ++ ts⟩ c = execProgram env n ⟨ts⟩ d := by
  have first := execProgram_normal_iff.mp h
  rw [execProgram, execProgram, Run.bind_apply, Run.bind_apply,
    Evaluators.execAll_append_of_normal first]

theorem execProgram_append_of_not_normal (h : (execProgram env n p c).1 ≠ .ok .normal)
    (ts : List Stmt) : execProgram env n ⟨p.statements ++ ts⟩ c = execProgram env n p c := by
  have first : ((evaluators env n).execAll p.statements c).1 ≠ .ok .normal := by
    intro hfirst
    have normal := execProgram_normal_iff.mpr (Prod.ext hfirst rfl)
    rw [normal] at h
    exact h rfl
  rw [execProgram, execProgram, Run.bind_apply, Run.bind_apply,
    Evaluators.execAll_append_of_not_normal first]

/-- A program at the top level ends there. -/
theorem execProgram_frame_top (env : Environment) (n : Nat) (p : Program)
    (top : c.frame = .top) : (execProgram env n p c).2.frame = .top := by
  obtain ⟨writes, _, hframe⟩ := keeps_execProgram env n p c
  rw [hframe, top]
  rfl

end Program

/-- The report with more output before its own. -/
def Report.after (r : Report) (text : String) : Report :=
  { r with output := text ++ r.output }

theorem Report.after_ofStop (text output : String) (stop : Stop) :
    (ofStop output none stop).after text = ofStop (text ++ output) none stop := by
  rcases stop with _ | _ | (_ | _) | _ | _ | _ <;> rfl

namespace Session

/-- The session as a later run finds it, without what the last run has written and logged. -/
def ready (s : Session) : Session :=
  { s with context := { s.context with output := "", log := [] } }

/-- The same report but for the line of a fault, and sessions in which, but for lines, later runs
find the same. -/
def SameEnd (a b : Report × Session) : Prop :=
  a.1.forgetLine = b.1.forgetLine ∧ a.2.ready.forgetLines = b.2.ready.forgetLines

/-- Two runs taken as one: the output of both, and apart from it what the second answers. -/
def inTurn (first second : Report × Session) : Report × Session :=
  (second.1.after first.1.output, second.2)

/-- The code of a source, run next in this session, ends normally. -/
def EndsNormally (s : Session) (debug : Bool) (p : Program) : Prop :=
  (execProgram (s.environment debug) s.limits.steps p s.fresh).1 = .ok .normal

theorem SameEnd.symm {a b : Report × Session} (h : SameEnd a b) : SameEnd b a :=
  ⟨h.1.symm, h.2.symm⟩

theorem SameEnd.trans {a b r : Report × Session} (h : SameEnd a b) (h' : SameEnd b r) :
    SameEnd a r :=
  ⟨h.1.trans h'.1, h.2.trans h'.2⟩

theorem SameRuns.sameEnd {a b : Report × Session} (h : SameRuns a b) : SameEnd a b :=
  ⟨h.1, congrArg ready h.2⟩

theorem SameEnd.inTurn {first first' second second' : Report × Session}
    (outputs : first.1.output = first'.1.output) (h : SameEnd second second') :
    SameEnd (Session.inTurn first second) (Session.inTurn first' second') := by
  refine ⟨?_, h.2⟩
  have same : (second.1.forgetLine).after first.1.output =
      (second'.1.forgetLine).after first'.1.output := by
    rw [outputs, h.1]
  exact same

/-- How a run ends whose code has started after other output, with another debug log, is seen from
the session that has kept this output: only the report shows the output of both. -/
theorem ended_after (s : Session) (d : Context) (r : Except Stop Outcome) (c : Context)
    (log : List String) :
    (s.ended (r, c.after d.output log)).1 =
        ((s.keep d).ended (r, c)).1.after (s.shownOutput d) ∧
      (s.ended (r, c.after d.output log)).2.ready = ((s.keep d).ended (r, c)).2.ready := by
  have shown : s.shownOutput (c.after d.output log) = s.shownOutput d ++ s.shownOutput c := by
    simp only [shownOutput]
    split
    · rfl
    · rfl
  have kept : (s.keep (c.after d.output log)).ready = ((s.keep d).keep c).ready := by
    have transcripts : s.transcript ++ (d.output ++ c.output) =
        s.transcript ++ d.output ++ c.output := (String.append_assoc).symm
    exact congrArg (fun transcript => ({ (s.keep c).ready with transcript } : Session)) transcripts
  cases r with
  | error stop =>
    refine ⟨?_, kept⟩
    have report := Report.after_ofStop (s.shownOutput d) (s.shownOutput c) stop
    rw [← shown] at report
    exact report.symm
  | ok outcome =>
    have report (v : Value) : Report.success (s.shownOutput (c.after d.output log)) v =
        (Report.success (s.shownOutput c) v).after (s.shownOutput d) := by
      rw [shown]
      rfl
    cases outcome with
    | returning v => exact ⟨report v, kept⟩
    | normal => exact ⟨report .null, kept⟩
    | breaking => exact ⟨report .null, kept⟩
    | continuing => exact ⟨report .null, kept⟩

/-- A source with a tree is run by executing it in the fresh context, but for the debug log, which
nothing depends on. -/
theorem run_of_program {s : Session} {source : String} {p : Program}
    (hp : parseSource s.limits.syntaxDepth source = .ok p) (debug : Bool) :
    ∃ log, s.run debug source = s.ended
      ((execProgram (s.environment debug) s.limits.steps p s.fresh).1,
        { (execProgram (s.environment debug) s.limits.steps p s.fresh).2 with log }) := by
  obtain ⟨ts, hts, hparsed⟩ := parseSource_eq_ok hp
  have logged : s.logged debug ts = s.fresh.after "" (s.logged debug ts).log := rfl
  obtain ⟨log, hrun⟩ := appends_execProgram (s.environment debug) s.limits.steps p s.fresh ""
    (s.logged debug ts).log
  refine ⟨log, ?_⟩
  rw [run_of_tree hts debug hparsed, logged, hrun, Context.after_empty]

theorem sameEnd_of_log (s : Session) (r : Except Stop Outcome) (c : Context) (log : List String) :
    SameEnd (s.ended (r, { c with log })) (s.ended (r, c)) := by
  rcases r with stop | (_ | _ | _ | _)
  all_goals exact ⟨rfl, rfl⟩

/-- Where a run has started makes no difference to what becomes of the way its code ends. -/
theorem ended_withContext (s : Session) (context : Context) (x : Except Stop Outcome × Context) :
    Session.ended { s with context } x = s.ended x := by
  rcases x with ⟨stop | (_ | _ | _ | _), c⟩
  all_goals rfl

/-- A source whose code ends normally leaves the context of its end to the next run, back at the top
level. -/
theorem run_of_normal {s : Session} {debug : Bool} {source : String} {p : Program} {d : Context}
    (hp : parseSource s.limits.syntaxDepth source = .ok p)
    (normal : execProgram (s.environment debug) s.limits.steps p s.fresh = (.ok .normal, d)) :
    ∃ context, s.run debug source =
        (.success (s.shownOutput d) .null, { s.keep d with context }) ∧
      Session.fresh { s.keep d with context } = { d with output := "", log := [] } := by
  obtain ⟨log, hrun⟩ := run_of_program hp debug
  rw [normal] at hrun
  have top := execProgram_frame_top (s.environment debug) s.limits.steps p (c := s.fresh) rfl
  rw [normal] at top
  refine ⟨{ d with frame := .top, log }, hrun, ?_⟩
  have framed : d = { d with frame := .top } := by rw [← top]
  exact congrArg (fun c : Context => { c with output := "", log := [] }) framed.symm

section Two

variable {s : Session} {debug : Bool} {source source₁ source₂ : String} {p p₁ p₂ : Program}
  (hp : parseSource s.limits.syntaxDepth source = .ok p)
  (hp₁ : parseSource s.limits.syntaxDepth source₁ = .ok p₁)
  (hp₂ : parseSource s.limits.syntaxDepth source₂ = .ok p₂)
  (parts : p.forgetLines.statements = p₁.forgetLines.statements ++ p₂.forgetLines.statements)

include hp parts

/-- Lines aside, the whole source is executed as the statements of both parts are. -/
theorem sameEnd_of_parts (debug : Bool) : SameEnd (s.run debug source)
    (s.ended (execProgram (s.environment debug) s.limits.steps ⟨p₁.statements ++ p₂.statements⟩
      s.fresh)) := by
  have trees : p.forgetLines = Program.forgetLines ⟨p₁.statements ++ p₂.statements⟩ := by
    have split := parts
    simp only [Program.forgetLines, Stmt.forgetLinesAll_eq_map] at split ⊢
    rw [split, List.map_append]
  obtain ⟨log, hrun⟩ := run_of_program hp debug
  obtain ⟨hend, hcontext⟩ :=
    execProgram_of_forgetLines (s.environment debug) s.limits.steps trees (c := s.fresh) rfl
  rw [hrun]
  exact (sameEnd_of_log s _ _ log).trans (sameRuns_ended rfl hend hcontext).sameEnd

include hp₁

theorem sameEnd_of_not_normal (early : ¬ s.EndsNormally debug p₁) :
    SameEnd (s.run debug source) (s.run debug source₁) := by
  obtain ⟨log, hrun⟩ := run_of_program hp₁ debug
  have whole := sameEnd_of_parts hp parts debug
  rw [execProgram_append_of_not_normal early] at whole
  rw [hrun]
  exact whole.trans (sameEnd_of_log s _ _ log).symm

include hp₂

theorem sameEnd_of_normal (normal : s.EndsNormally debug p₁) :
    SameEnd (s.run debug source) (inTurn (s.run debug source₁)
      ((s.run debug source₁).2.run debug source₂)) := by
  rcases hfirst : execProgram (s.environment debug) s.limits.steps p₁ s.fresh with ⟨r, d⟩
  have hr : r = .ok .normal := by
    rw [EndsNormally, hfirst] at normal
    exact normal
  subst hr
  obtain ⟨context, hrun₁, hfresh⟩ := run_of_normal hp₁ hfirst
  let next : Session := { s.keep d with context }
  obtain ⟨log₂, hrun₂⟩ : ∃ log, next.run debug source₂ = next.ended
      ((execProgram (s.environment debug) s.limits.steps p₂ next.fresh).1,
        { (execProgram (s.environment debug) s.limits.steps p₂ next.fresh).2 with log }) :=
    run_of_program (s := next) hp₂ debug
  rw [hrun₁, hrun₂]
  -- the same code once in a fresh context and once after the output of the first run
  obtain ⟨log₃, hrest⟩ := appends_execProgram (s.environment debug) s.limits.steps p₂ next.fresh
    d.output d.log
  rw [hfresh, ← Context.eq_after, ← hfresh] at hrest
  have whole := sameEnd_of_parts hp parts debug
  rw [execProgram_append_of_normal hfirst, hrest] at whole
  generalize execProgram (s.environment debug) s.limits.steps p₂ next.fresh = x at whole ⊢
  obtain ⟨hreport, hready⟩ := s.ended_after d x.1 x.2 log₃
  have outputs : SameEnd (s.ended (x.1, x.2.after d.output log₃))
      (inTurn (.success (s.shownOutput d) .null, next) ((s.keep d).ended x)) :=
    ⟨congrArg Report.forgetLine hreport, congrArg Session.forgetLines hready⟩
  have logs : SameEnd ((s.keep d).ended x) (next.ended (x.1, { x.2 with log := log₂ })) := by
    rw [ended_withContext]
    exact (sameEnd_of_log (s.keep d) x.1 x.2 log₂).symm
  exact whole.trans (outputs.trans (logs.inTurn rfl))

end Two

end Session

open Session

/-- Let a source have the statements of two others, one after the other. In any session, if executing
the first of these ends normally, then to run the source is to run the one and then the other:
report and session are those after the second run, and the output is that of both. If it ends in any
other way, by a `return`, a thrown value, loop control or a fault, then to run the source is to run
the first of them alone. The places of statements make no difference to this, nor does what earlier
runs have left in the session. -/
theorem session_is_one_script (s : Session) (debug : Bool) {source source₁ source₂ : String}
    {p p₁ p₂ : Program} (hp : parseSource s.limits.syntaxDepth source = .ok p)
    (hp₁ : parseSource s.limits.syntaxDepth source₁ = .ok p₁)
    (hp₂ : parseSource s.limits.syntaxDepth source₂ = .ok p₂)
    (parts : p.forgetLines.statements = p₁.forgetLines.statements ++ p₂.forgetLines.statements) :
    (s.EndsNormally debug p₁ → SameEnd (s.run debug source)
      (inTurn (s.run debug source₁) ((s.run debug source₁).2.run debug source₂))) ∧
    (¬ s.EndsNormally debug p₁ → SameEnd (s.run debug source) (s.run debug source₁)) := by
  constructor
  · intro normal
    exact sameEnd_of_normal hp hp₁ hp₂ parts normal
  · intro early
    exact sameEnd_of_not_normal hp hp₁ parts early

private def listening : Session :=
  { Session.start ⟨"", []⟩ none true "" with limits := ⟨9, 9, 9⟩ }

/-- An assignment and the printing of its variable, on one line and in two runs. -/
theorem session_is_one_script_print :
    listening.EndsNormally false ⟨[.simple (.assign "a" (.null 1) 1)]⟩ ∧
    SameEnd (listening.run false "a = null; print a;")
      (inTurn (listening.run false "a = null;")
        ((listening.run false "a = null;").2.run false "print a;")) := by
  have whole : scan "a = null; print a;" = ⟨[⟨.identifier, "a", 1, 1⟩, ⟨.assign, "=", 1, 3⟩,
      ⟨.keyword, "null", 1, 5⟩, ⟨.separator, ";", 1, 9⟩, ⟨.identifier, "print", 1, 11⟩,
      ⟨.identifier, "a", 1, 17⟩, ⟨.separator, ";", 1, 18⟩], none⟩ := by decide +kernel
  have first : scan "a = null;" = ⟨[⟨.identifier, "a", 1, 1⟩, ⟨.assign, "=", 1, 3⟩,
      ⟨.keyword, "null", 1, 5⟩, ⟨.separator, ";", 1, 9⟩], none⟩ := by decide +kernel
  have second : scan "print a;" = ⟨[⟨.identifier, "print", 1, 1⟩, ⟨.identifier, "a", 1, 7⟩,
      ⟨.separator, ";", 1, 8⟩], none⟩ := by decide +kernel
  have hp : parseSource listening.limits.syntaxDepth "a = null; print a;" =
      .ok ⟨[.simple (.assign "a" (.null 1) 1), .print (.var "a" 1) 1]⟩ := by
    rw [parseSource_of_tokenize (tokenize_of_scan whole)]
    rfl
  have hp₁ : parseSource listening.limits.syntaxDepth "a = null;" =
      .ok ⟨[.simple (.assign "a" (.null 1) 1)]⟩ := by
    rw [parseSource_of_tokenize (tokenize_of_scan first)]
    rfl
  have hp₂ : parseSource listening.limits.syntaxDepth "print a;" =
      .ok ⟨[.print (.var "a" 1) 1]⟩ := by
    rw [parseSource_of_tokenize (tokenize_of_scan second)]
    rfl
  have normal : listening.EndsNormally false ⟨[.simple (.assign "a" (.null 1) 1)]⟩ := rfl
  exact ⟨normal, (session_is_one_script listening false hp hp₁ hp₂ rfl).1 normal⟩

end ClassScript
