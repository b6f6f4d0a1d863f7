import ClassScript.Proofs.DisciplineRules
import ClassScript.Proofs.LayoutIndependence
import ClassScript.Proofs.UncaughtRuns

/-!
# Only `throw` raises

A fault is not a thrown value, and nothing makes one of it: a value is thrown by a `throw` statement
and by nothing else. So in a session whose sources and imported modules have no `throw` in them,
whatever faults occur, no expression and no statement ends by a thrown value, no run is reported for
an exception, and no `catch` is entered, evaluation being the same as without `catch`.

Evaluation without `catch` does not depend on `catch` clauses. If they are replaced in all sources
and modules, even by code that would throw, the session goes on as it does.
-/

namespace ClassScript

open Run

/-- To have no `throw`, not even in the body of a function, and to throw nothing. -/
def throwless : Discipline where
  stmt _ s := s.Everywhere fun s => s.isThrow = false
  expr _ := True
  cause _ := True
  raises := False
  exprs_of _ _ _ := trivial
  operands_of _ _ _ := trivial
  inside h := by
    cases h with
    | intro _ inside => exact inside
  throws h := nomatch h.here
  control _ _ := Or.inr fun _ => trivial
  ordinary _ := trivial

theorem Event.throws_of_keeps {ev : Event} (h : ev.moment.Keeps throwless) :
    ev.throws = false := by
  obtain ⟨moment, c⟩ := ev
  cases moment with
  | executing s =>
    obtain ⟨_, hs⟩ := h
    exact hs.here
  | _ => rfl

/-- `catch` clauses are not compared, and lines only if asked for. -/
def Blur.clauses (lines : Bool) : Blur where
  line l := if lines then l else 0
  access a := a
  flag f := f
  log := false
  catches := false
  line_twice _ := by cases lines <;> rfl
  access_twice _ := rfl
  flag_twice _ := rfl

section Agreement

variable {b : Blur}

theorem EndAlike.raises_eq {α : Type} {r r' : Except Stop α} (h : EndAlike b Eq r r') :
    raises r = raises r' := by
  cases h with
  | ok => rfl
  | error same => rcases Stop.eq_or_fault same with rfl | ⟨f, f', rfl, rfl⟩ <;> rfl

section Rules

variable {env env' : Environment} (henv : env.Alike b env') {k k' : Evaluators}
  (hk : k.AgreeUpTo b k')

include hk

/-- The rule without `catch` looks at no `catch` clause. -/
theorem agree_execUncaughtTry (body : Block) (handlers : Handlers) :
    Agree b Eq (execUncaughtTry k body handlers)
      (execUncaughtTry k' (body.blur b) (handlers.blur b)) := by
  refine (agree_blurredBlock hk body).bind fun first => ?_
  rw [final?_blur]
  cases handlers.final? with
  | none => exact .pure rfl
  | some final =>
    refine (agree_blurredBlock hk final).bind fun outcome => ?_
    cases outcome <;> exact .pure rfl

include henv

theorem agree_execUncaughtStep (s : Stmt) :
    Agree b Eq (execUncaughtStep env k s) (execUncaughtStep env' k' (s.blur b)) := by
  cases s with
  | tryBlock body handlers line => exact agree_execUncaughtTry hk body handlers
  | conditional _ _ elseBranch _ =>
    cases elseBranch <;> exact agree_execStep henv hk (.conditional ..) nofun
  | _ => exact agree_execStep henv hk _ nofun

end Rules

/-- Evaluation without `catch` agrees up to any blur: by induction on the budget. -/
theorem uncaught_agree {env env' : Environment} (henv : env.Alike b env') (n : Nat) :
    (uncaught env n).AgreeUpTo b (uncaught env' n) := by
  induction n generalizing env with
  | zero => exact ⟨fun _ => .stop rfl, fun _ => .stop rfl, rfl⟩
  | succ n ih =>
    have own : env'.Alike b env' := .refl b env'
    exact agree_further henv (ih henv) (ih own) (agree_execUncaughtStep henv (ih henv))
      (agree_execUncaughtStep own (ih own)) (n + 1)

theorem Environment.Alike.quiet {env env' : Environment} (henv : env.Alike b env') :
    env.quiet.Alike b env'.quiet :=
  { henv with debug := rfl, modules := henv.modules }

/-- Where programs are the same up to the blur, and evaluation of the first is undisturbed, so is
that of the second, and both do the same up to the blur. -/
theorem Run.Undisturbed.transfer (unlogged : b.log = false) {env env' : Environment}
    (henv : env.Alike b env') {n : Nat} {p p' : Program} (trees : p.blur b = p'.blur b)
    {c d : Context} (hcd : c.blur b = d.blur b) {events : List Event}
    (h : (execProgram env n p).Undisturbed ((uncaught env.quiet n).execProgram p) c events) :
    (∃ events', (execProgram env' n p').History
        (fun note => (noted env'.quiet note n).execProgram p') d events' ∧
      (execProgram env' n p').Undisturbed ((uncaught env'.quiet n).execProgram p') d events') ∧
    EndAlike b Eq (execProgram env n p c).1 (execProgram env' n p' d).1 ∧
      (execProgram env n p c).2.blur b = (execProgram env' n p' d).2.blur b := by
  -- the two runs without `catch` stand between the others
  obtain ⟨hend, hctx⟩ := (uncaught_agree henv.quiet n).execProgram trees c d hcd
  have same : (uncaught env.quiet n).execProgram p c = _ := h.same c.log
  have unraised : raises ((uncaught env'.quiet n).execProgram p' d).1 = false := by
    rw [← hend.raises_eq, same]
    exact h.result
  obtain ⟨events', history', _⟩ := raisesByThrow_execProgram env' n p' d
  have h' := execProgram_undisturbed history' (Or.inr unraised)
  have same' : (uncaught env'.quiet n).execProgram p' d = _ := h'.same d.log
  rw [same, same'] at hend hctx
  refine ⟨⟨events', history', h'⟩, hend, ?_⟩
  calc (execProgram env n p c).2.blur b
      = ((execProgram env n p c).2.withLog c.log).blur b :=
        (Context.blur_withLog unlogged _ c.log).symm
    _ = ((execProgram env' n p' d).2.withLog d.log).blur b := hctx
    _ = (execProgram env' n p' d).2.blur b := Context.blur_withLog unlogged _ d.log

end Agreement

theorem Report.kind_ofStop {stop : Stop} (h : stop.isRaised = false) (output : String)
    (source : Option String) : (ofStop output source stop).kind ≠ some .exception := by
  cases stop with
  | raised v trace => cases h
  | malformed e => cases e <;> nofun
  | _ => nofun

namespace Session

theorem kind_ended (s : Session) {x : Except Stop Outcome × Context} (h : raises x.1 = false) :
    (s.ended x).1.kind ≠ some .exception := by
  rcases x with ⟨stop | outcome, c⟩
  · exact Report.kind_ofStop h _ _
  · cases outcome <;> nofun

variable {s s' : Session} {debug : Bool} {source source' : String}

/-- If the source has a tree, then nothing on the way of its program ends by a thrown value, and
without `catch` the program does the same. -/
def RunsUndisturbed (s : Session) (debug : Bool) (source : String) : Prop :=
  ∀ p c, parseLogged (s.environment debug) source s.fresh = (.ok p, c) →
    ∃ events, (execProgram (s.environment debug) s.limits.steps p).History
        (fun note => (noted (s.environment debug).quiet note s.limits.steps).execProgram p) c
        events ∧
      (execProgram (s.environment debug) s.limits.steps p).Undisturbed
        ((uncaught (s.environment debug).quiet s.limits.steps).execProgram p) c events

/-- A run in which no value is thrown. -/
structure RunsCalmly (s : Session) (debug : Bool) (source : String) : Prop where
  /-- Neither an expression nor a statement nor the run ends by a thrown value. -/
  unraised : ∃ events, s.Passes debug source events ∧ ∀ ev ∈ events, ev.raises = false
  report : (s.run debug source).1.kind ≠ some .exception
  /-- No `catch` is entered: without them the program does the same, debug log aside. -/
  uncaught {p : Program} {c : Context} :
    parseLogged (s.environment debug) source s.fresh = (.ok p, c) → ∀ log,
      (uncaught (s.environment debug).quiet s.limits.steps).execProgram p (c.withLog log) =
        ((execProgram (s.environment debug) s.limits.steps p c).1,
          (execProgram (s.environment debug) s.limits.steps p c).2.withLog log)

theorem RunsUndisturbed.calmly (h : s.RunsUndisturbed debug source) :
    s.RunsCalmly debug source := by
  have same {p : Program} {c : Context}
      (hparse : parseLogged (s.environment debug) source s.fresh = (.ok p, c)) :=
    (h p c hparse).elim fun _ run => run.2.same
  obtain ⟨log, ⟨p, hparse, _⟩ | ⟨stop, hparse, refused⟩⟩ :=
    parseLogged_result (s.environment debug) source s.fresh
  · obtain ⟨inner, history, undisturbed⟩ := h p _ hparse
    have passes := Passes.executed hparse rfl history
    refine ⟨⟨_, passes, List.forall_mem_cons.mpr ⟨rfl, ?_⟩⟩, ?_, same⟩
    · refine List.forall_mem_append.mpr ⟨undisturbed.events, ?_⟩
      exact List.forall_mem_singleton.mpr undisturbed.result
    · rw [run_eq, hparse]
      exact s.kind_ended undisturbed.result
  · have unraised : stop.isRaised = false := by
      rcases refused with ⟨e, rfl⟩ | ⟨calls, rfl⟩ <;> rfl
    refine ⟨⟨_, .refused hparse, List.forall_mem_cons.mpr ⟨rfl, ?_⟩⟩, ?_, same⟩
    · exact List.forall_mem_singleton.mpr unraised
    · rw [run_eq, hparse]
      exact Report.kind_ofStop unraised _ _

/-- The history of a run of throwless code has no `throw`. -/
theorem RunsCode.undisturbed (h : s.RunsCode throwless debug source)
    (stores : s.context.Stores throwless) : s.RunsUndisturbed debug source := by
  intro p c hparse
  obtain ⟨_, events, passes, _, keeps⟩ := run_obeys stores h.code h.imports
  obtain ⟨inner, history, _⟩ :=
    raisesByThrow_execProgram (s.environment debug) s.limits.steps p c
  cases passes.unique (.executed hparse rfl history)
  refine ⟨inner, history, execProgram_undisturbed history (Or.inl fun ev hev => ?_)⟩
  exact Event.throws_of_keeps (keeps ev (List.mem_cons_of_mem _ (List.mem_append_left _ hev)))

/-- What is undisturbed in one of two sessions is so in the other one. -/
theorem SameUpTo.rerun {b : Blur} (same : s.SameUpTo b s') (unlogged : b.log = false)
    (modules : s.ModulesAlike b s')
    (alike : SourcesAlike b s.limits.syntaxDepth source source')
    (h : s.RunsUndisturbed debug source) :
    s'.RunsUndisturbed debug source' ∧ SameEnds b (s.run debug source) (s'.run debug source') := by
  have henv := same.environment unlogged modules debug
  constructor
  · intro p' d hd
    obtain ⟨hend, hcd⟩ := same.parsed unlogged modules debug alike
    rcases hc : parseLogged (s.environment debug) source s.fresh with ⟨r, c⟩
    rw [hc, hd] at hend hcd
    cases hend with
    | ok trees =>
      obtain ⟨events, _, undisturbed⟩ := h _ c hc
      rw [← same.limits]
      exact (undisturbed.transfer unlogged henv trees hcd).1
  · refine same.run unlogged modules debug alike fun p p' c d hc _ trees hcd => ?_
    obtain ⟨events, _, undisturbed⟩ := h p c hc
    rw [← same.limits]
    exact (undisturbed.transfer unlogged henv trees hcd).2

/-- Two sessions that have run the same code but for `catch` clauses, lines compared or not. The
code of the first one is throwless. -/
inductive Reworded (lines : Bool) : Session → Session → Prop
  | start (files files' : Files) (directory : Option String) (captures : Bool) (input : String) :
    Reworded lines (start files directory captures input) (start files' directory captures input)
  | change {s s' : Session} (files files' : Files) (directory : Option String) (captures : Bool)
    (limits : Limits) : Reworded lines s s' →
    Reworded lines { s with files, directory, captures, limits }
      { s' with files := files', directory, captures, limits }
  | run {s s' : Session} {debug : Bool} {source source' : String} : Reworded lines s s' →
    s.RunsCode throwless debug source → s.ModulesAlike (.clauses lines) s' →
    SourcesAlike (.clauses lines) s.limits.syntaxDepth source source' →
    Reworded lines (s.run debug source).2 (s'.run debug source').2

/-- By induction over the runs. -/
theorem Reworded.same {lines : Bool} (h : Reworded lines s s') :
    s.Kept throwless ∧ s.SameUpTo (.clauses lines) s' := by
  induction h with
  | start files files' directory captures input => exact ⟨.start .., ⟨rfl, rfl, rfl, rfl, rfl⟩⟩
  | change files files' directory captures limits _ ih =>
    obtain ⟨kept, same⟩ := ih
    exact ⟨kept.change .., ⟨rfl, rfl, rfl, same.context, same.transcript⟩⟩
  | run _ code modules alike ih =>
    obtain ⟨kept, same⟩ := ih
    have undisturbed := code.undisturbed kept.stores
    exact ⟨kept.run code, (same.rerun rfl modules alike undisturbed).2.session⟩

/-- The same report, in which lines may differ unless they are compared, and the same state but for
the `catch` clauses of stored code. -/
structure SameResults (lines : Bool) (x y : Report × Session) : Prop where
  report : lines = true → x.1 = y.1
  unplaced : x.1.forgetLine = y.1.forgetLine
  state : x.2.SameUpTo (.clauses lines) y.2

theorem SameEnds.results {lines : Bool} {x y : Report × Session}
    (h : SameEnds (.clauses lines) x y) : SameResults lines x y := by
  have forget (r : Report) : (r.blur (.clauses lines)).forgetLine = r.forgetLine := by
    rw [Report.blur, Report.forgetLine, Option.map_map]
    rfl
  refine ⟨fun compared => ?_, ?_, h.session⟩
  · subst compared
    have line (r : Report) : r.blur (.clauses true) = r := r.blur_of_line fun _ => rfl
    rw [← line x.1, h.report, line]
  · rw [← forget, h.report, forget]

end Session

open Session

/-- In a session that runs throwless code only, functions and methods of earlier runs and modules
included, a run of throwless code throws no value: no expression and no statement ends by one, the
report is of no exception, and no `catch` is entered. And if the `catch` clauses of all this code
are replaced by any others, then all this is so as well, and the results are the same. -/
theorem only_throw_raises {s : Session} (kept : s.Kept throwless) {debug : Bool} {source : String}
    (code : s.RunsCode throwless debug source) :
    s.RunsCalmly debug source ∧
    ∀ lines s' source', Reworded lines s s' → s.ModulesAlike (.clauses lines) s' →
      SourcesAlike (.clauses lines) s.limits.syntaxDepth source source' →
      s'.RunsCalmly debug source' ∧
        SameResults lines (s.run debug source) (s'.run debug source') := by
  have undisturbed := code.undisturbed kept.stores
  refine ⟨undisturbed.calmly, fun lines s' source' reworded modules alike => ?_⟩
  obtain ⟨undisturbed', ends⟩ := reworded.same.2.rerun rfl modules alike undisturbed
  exact ⟨undisturbed'.calmly, ends.results⟩

private def swallowing : String := "try { x } catch (e) { }"

private def rethrowing : String := "try { x } catch (f) { throw f }"

/-- A session in which the module `m` has this text. -/
private def importing (text : String) : Session :=
  Session.start ⟨"", [(["m.mycs"], .file text)]⟩ none true ""

private def guarded (name : String) (body : List Stmt) : Program :=
  ⟨[.tryBlock (.mk [.simple (.expr (.var "x" 1) 1)] 1) (.catchOnly name (.mk body 1)) 1]⟩

private theorem parse_swallowing : parseSource 2000 swallowing = .ok (guarded "e" []) := by
  have scanned : scan swallowing = ⟨[⟨.keyword, "try", 1, 1⟩, ⟨.lbrace, "\x7b", 1, 5⟩,
      ⟨.identifier, "x", 1, 7⟩, ⟨.rbrace, "\x7d", 1, 9⟩, ⟨.keyword, "catch", 1, 11⟩,
      ⟨.lparen, "(", 1, 17⟩, ⟨.identifier, "e", 1, 18⟩, ⟨.rparen, ")", 1, 19⟩,
      ⟨.lbrace, "\x7b", 1, 21⟩, ⟨.rbrace, "\x7d", 1, 23⟩], none⟩ := by decide +kernel
  rw [parseSource_of_tokenize (tokenize_of_scan scanned)]
  rfl

private theorem parse_rethrowing :
    parseSource 2000 rethrowing = .ok (guarded "f" [.throwValue (.var "f" 1) 1]) := by
  have scanned : scan rethrowing = ⟨[⟨.keyword, "try", 1, 1⟩, ⟨.lbrace, "\x7b", 1, 5⟩,
      ⟨.identifier, "x", 1, 7⟩, ⟨.rbrace, "\x7d", 1, 9⟩, ⟨.keyword, "catch", 1, 11⟩,
      ⟨.lparen, "(", 1, 17⟩, ⟨.identifier, "f", 1, 18⟩, ⟨.rparen, ")", 1, 19⟩,
      ⟨.lbrace, "\x7b", 1, 21⟩, ⟨.keyword, "throw", 1, 23⟩, ⟨.identifier, "f", 1, 29⟩,
      ⟨.rbrace, "\x7d", 1, 31⟩], none⟩ := by decide +kernel
  rw [parseSource_of_tokenize (tokenize_of_scan scanned)]
  rfl

private theorem importing_throwless :
    (importing swallowing).RunsCode throwless false "import m;" := by
  have scanned : scan "import m;" = ⟨[⟨.keyword, "import", 1, 1⟩, ⟨.identifier, "m", 1, 8⟩,
      ⟨.separator, ";", 1, 9⟩], none⟩ := by decide +kernel
  constructor
  · intro p hp
    rw [parseSource_of_tokenize (tokenize_of_scan scanned)] at hp
    cases hp
    exact List.forall_mem_singleton.mpr (.of_no_bodies rfl rfl)
  · intro events _ ev _ module line path text p _ _ htext hp
    -- only one text can be read
    obtain ⟨raw, hraw, rfl⟩ := Files.mem_of_readText? htext
    cases List.mem_singleton.mp hraw
    have unchanged : String.ofList (Text.normalizeNewlines swallowing.toList) = swallowing := by
      decide
    rw [unchanged] at hp
    cases parse_swallowing.symm.trans hp
    refine List.forall_mem_singleton.mpr (.intro rfl fun b hb s hs => ?_)
    rcases List.mem_pair.mp hb with rfl | rfl
    · cases List.mem_singleton.mp hs
      exact .of_no_bodies rfl rfl
    · cases hs

private theorem importing_alike :
    (importing swallowing).ModulesAlike (.clauses true) (importing rethrowing) := by
  intro module path _
  exact alike_of_single "" ["m.mycs"] (by decide) (by decide)
    (.trees parse_swallowing parse_rethrowing rfl) path

/-- A module with a fault in a `try`. It makes no difference that another `catch` would throw. -/
theorem only_throw_raises_guarded_fault :
    (importing swallowing).RunsCode throwless false "import m;" ∧
      (importing swallowing).RunsCalmly false "import m;" ∧
      ((importing swallowing).run false "import m;").1.kind = some .fault ∧
      (importing rethrowing).RunsCalmly false "import m;" ∧
      SameResults true ((importing swallowing).run false "import m;")
        ((importing rethrowing).run false "import m;") := by
  obtain ⟨calm, replaced⟩ := only_throw_raises (.start ..) importing_throwless
  obtain ⟨calm', results⟩ :=
    replaced true (importing rethrowing) "import m;" (.start ..) importing_alike (.same _)
  exact ⟨importing_throwless, calm, by decide +kernel, calm', results⟩

end ClassScript
