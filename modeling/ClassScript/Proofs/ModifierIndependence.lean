import Mathlib.Data.List.Forall2
import ClassScript.Proofs.AgreeingSessions
import ClassScript.Proofs.Dispatch

/-!
# Modifiers make no difference

The access of a member and the flags `virtual` and `override` are stored with the member, in the
class table and in the answers that the table remembers, and nothing that runs looks at them there.
Two sessions whose sources and modules have trees that differ in modifiers alone give the same
reports, run after run, and end with the same variables and objects. What is left to tell them apart
is the class graph, which displays modifiers. A debug log shows the tokens of the sources, whatever
becomes of them, and is not compared.
-/

namespace ClassScript

/-- Any access is the same as any other, and a flag that is set the same as one that is not. -/
def Blur.modifiers : Blur where
  line l := l
  access _ := .publicAccess
  flag _ := false
  log := false
  line_twice _ := rfl
  access_twice _ := rfl
  flag_twice _ := rfl

theorem Resolution.Alike.kindAndOwner_eq {b : Blur} {r r' : Resolution} (h : r.Alike b r') :
    r.kindAndOwner = r'.kindAndOwner := by
  rcases h with _ | ⟨owner, _ | _⟩ <;> rfl

namespace Session

/-- Sessions that differ in modifiers alone: in those of modules, and in those of the members that
are defined. -/
structure SameButModifiers (s s' : Session) : Prop where
  directory : s.directory = s'.directory
  captures : s.captures = s'.captures
  limits : s.limits = s'.limits
  modules {module : String} {path : List String} :
    modulePath? (s.environment false) module = some path →
    Option.Rel (SourcesAlike .modifiers s.limits.syntaxDepth) (s.files.readText? path)
      (s'.files.readText? path)
  context : s.context.blur .modifiers = s'.context.blur .modifiers
  transcript : s.transcript = s'.transcript

/-- Runs sources one after another, each with or without a debug log. -/
def runAll (s : Session) : List (Bool × String) → List Report × Session
  | [] => ([], s)
  | (debug, source) :: rest =>
    let first := s.run debug source
    let others := first.2.runAll rest
    (first.1 :: others.1, others.2)

variable {s s' : Session}

theorem SameButModifiers.sameUpTo (same : s.SameButModifiers s') : s.SameUpTo .modifiers s' :=
  ⟨same.directory, same.captures, same.limits, same.context, same.transcript⟩

/-- The same report, and sessions that differ in modifiers alone. -/
def EndsAlike (x y : Report × Session) : Prop :=
  x.1 = y.1 ∧ x.2.SameButModifiers y.2

/-- Sources that differ in modifiers alone are run alike. No report has a modifier. -/
theorem SameButModifiers.run (same : s.SameButModifiers s') {source source' : String}
    (alike : SourcesAlike .modifiers s.limits.syntaxDepth source source') (debug : Bool) :
    EndsAlike (s.run debug source) (s'.run debug source') := by
  have modules : s.ModulesAlike .modifiers s' := same.modules
  have henv := same.sameUpTo.environment rfl modules debug
  obtain ⟨report, kept⟩ := same.sameUpTo.run rfl modules debug alike
    fun p p' c d _ _ trees hcd => by
      rw [← same.limits]
      exact agree_execProgram rfl henv s.limits.steps trees c d hcd
  rw [Report.blur_of_line fun _ => rfl, Report.blur_of_line fun _ => rfl] at report
  obtain ⟨c, hc⟩ := s.run_keeps debug source
  obtain ⟨d, hd⟩ := s'.run_keeps debug source'
  refine ⟨report, kept.directory, kept.captures, kept.limits, ?_, kept.context, kept.transcript⟩
  rw [hc, hd]
  exact same.modules

theorem run_limits (s : Session) (debug : Bool) (source : String) :
    (s.run debug source).2.limits = s.limits := by
  obtain ⟨c, hc⟩ := s.run_keeps debug source
  rw [hc]
  rfl

/-- Two lists of runs of sources that differ in modifiers alone. -/
def RunsAlike (depth : Nat) : List (Bool × String) → List (Bool × String) → Prop :=
  List.Forall₂ fun r r' => r.1 = r'.1 ∧ SourcesAlike .modifiers depth r.2 r'.2

/-- One run after another, by induction on the runs. -/
theorem SameButModifiers.runAll {runs runs' : List (Bool × String)} (same : s.SameButModifiers s')
    (alike : RunsAlike s.limits.syntaxDepth runs runs') :
    (s.runAll runs).1 = (s'.runAll runs').1 ∧
      (s.runAll runs).2.SameButModifiers (s'.runAll runs').2 := by
  induction runs generalizing s s' runs' with
  | nil =>
    cases alike
    exact ⟨rfl, same⟩
  | cons r runs ih =>
    obtain ⟨debug, source⟩ := r
    obtain ⟨r', runs', ⟨hdebug, hsource⟩, hrest, rfl⟩ := List.forall₂_cons_left_iff.mp alike
    obtain ⟨debug', source'⟩ := r'
    obtain rfl : debug = debug' := hdebug
    obtain ⟨hreport, hnext⟩ := same.run hsource debug
    rw [← s.run_limits debug source] at hrest
    obtain ⟨hreports, hlast⟩ := ih hnext hrest
    refine ⟨?_, hlast⟩
    dsimp only [Session.runAll]
    rw [hreport, hreports]

/-- What two sessions have in common that differ in modifiers alone. -/
structure SameState (s s' : Session) : Prop where
  globals : s.context.globals = s'.context.globals
  objects : s.context.heap = s'.context.heap
  input : s.context.input = s'.context.input
  output : s.context.output = s'.context.output
  transcript : s.transcript = s'.transcript
  resolutions (i : Nat) (name : String) :
    (s.context.classes.resolve? i name).map (fun answer => answer.1.kindAndOwner) =
      (s'.context.classes.resolve? i name).map fun answer => answer.1.kindAndOwner
  /-- All else is the same too, down to the answers that the class table remembers. -/
  context : s.context.blur .modifiers = s'.context.blur .modifiers

theorem SameButModifiers.sameState (same : s.SameButModifiers s') : s.SameState s' where
  globals := Context.globals_of_same same.context
  objects := Context.heap_of_same same.context
  input := Context.input_of_same same.context
  output := Context.output_of_same same.context
  transcript := same.transcript
  resolutions i name := by
    have found := Context.resolve?_of_same same.context i name
    generalize s.context.classes.resolve? i name = p,
      s'.context.classes.resolve? i name = q at found ⊢
    cases found with
    | none => rfl
    | some h =>
      have answer := Resolution.alike_of_blur (Prod.mk.inj h).1
      exact congrArg some answer.kindAndOwner_eq
  context := same.context

end Session

open Session

/-- Two sessions that differ in modifiers alone, in which sources that differ in modifiers alone are
run one after another, give the same reports and end in the same state. -/
theorem modifiers_make_no_difference {s s' : Session} (same : s.SameButModifiers s')
    {runs runs' : List (Bool × String)} (alike : RunsAlike s.limits.syntaxDepth runs runs') :
    (s.runAll runs).1 = (s'.runAll runs').1 ∧ (s.runAll runs).2.SameState (s'.runAll runs').2 := by
  obtain ⟨reports, last⟩ := same.runAll alike
  exact ⟨reports, last.sameState⟩

private def worded : String := "class A { public virtual function f() { } }"

private def wordless : String := "class A { function f() { } }"

/-- A session in which the module `m` has this text. -/
private def sessionOf (text : String) : Session :=
  { Session.start ⟨"", [(["m.mycs"], .file text)]⟩ none true "" with limits := ⟨9, 9, 9⟩ }

private theorem worded_alike : SourcesAlike .modifiers 9 worded wordless := by
  have scanned : scan worded = ⟨[⟨.keyword, "class", 1, 1⟩, ⟨.identifier, "A", 1, 7⟩,
      ⟨.lbrace, "\x7b", 1, 9⟩, ⟨.keyword, "public", 1, 11⟩, ⟨.keyword, "virtual", 1, 18⟩,
      ⟨.keyword, "function", 1, 26⟩, ⟨.identifier, "f", 1, 35⟩, ⟨.lparen, "(", 1, 36⟩,
      ⟨.rparen, ")", 1, 37⟩, ⟨.lbrace, "\x7b", 1, 39⟩, ⟨.rbrace, "\x7d", 1, 41⟩,
      ⟨.rbrace, "\x7d", 1, 43⟩], none⟩ := by decide +kernel
  have scanned' : scan wordless = ⟨[⟨.keyword, "class", 1, 1⟩, ⟨.identifier, "A", 1, 7⟩,
      ⟨.lbrace, "\x7b", 1, 9⟩, ⟨.keyword, "function", 1, 11⟩, ⟨.identifier, "f", 1, 20⟩,
      ⟨.lparen, "(", 1, 21⟩, ⟨.rparen, ")", 1, 22⟩, ⟨.lbrace, "\x7b", 1, 24⟩,
      ⟨.rbrace, "\x7d", 1, 26⟩, ⟨.rbrace, "\x7d", 1, 28⟩], none⟩ := by decide +kernel
  have tree : parseSource 9 worded = .ok ⟨[.classDecl "A" none []
      [.method "f" .publicAccess [] (.mk [] 1) true false 1] 1]⟩ := by
    rw [parseSource_of_tokenize (tokenize_of_scan scanned)]
    rfl
  have tree' : parseSource 9 wordless = .ok ⟨[.classDecl "A" none []
      [.method "f" .privateAccess [] (.mk [] 1) false false 1] 1]⟩ := by
    rw [parseSource_of_tokenize (tokenize_of_scan scanned')]
    rfl
  exact .trees tree tree' rfl

private theorem sessionOf_same : (sessionOf worded).SameButModifiers (sessionOf wordless) where
  directory := rfl
  captures := rfl
  limits := rfl
  modules {_ path} _ := alike_of_single "" ["m.mycs"] (by decide) (by decide) worded_alike path
  context := rfl
  transcript := rfl

private def runsOf (text : String) : List (Bool × String) :=
  [(false, "import m;"), (true, text)]

/-- A class with a public virtual method and one with a private method, each imported and then
declared again. The members keep their modifiers. -/
theorem modifiers_make_no_difference_virtual :
    (sessionOf worded).SameButModifiers (sessionOf wordless) ∧
      RunsAlike 9 (runsOf worded) (runsOf wordless) ∧
      ((sessionOf worded).runAll (runsOf worded)).1 =
        ((sessionOf wordless).runAll (runsOf wordless)).1 ∧
      ((sessionOf worded).runAll (runsOf worded)).2.SameState
        ((sessionOf wordless).runAll (runsOf wordless)).2 ∧
      (((sessionOf worded).runAll (runsOf worded)).2.context.classes.member? 0 "f").map
        Member.access = some .publicAccess ∧
      (((sessionOf wordless).runAll (runsOf wordless)).2.context.classes.member? 0 "f").map
        Member.access = some .privateAccess := by
  have runs : RunsAlike 9 (runsOf worded) (runsOf wordless) :=
    .cons ⟨rfl, .same _⟩ (.cons ⟨rfl, worded_alike⟩ .nil)
  obtain ⟨reports, state⟩ := modifiers_make_no_difference sessionOf_same runs
  exact ⟨sessionOf_same, runs, reports, state, by decide +kernel, by decide +kernel⟩

end ClassScript
