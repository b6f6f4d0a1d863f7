import ClassScript.Proofs.FrameRestoration
import ClassScript.Proofs.ImportStack
import ClassScript.Proofs.LayoutIndependence

/-!
# An import is its module inlined at the top level

To do the same under a smaller import stack is a relation that every rule keeps. The rule for
imports is the only one that looks at the stack. What the larger stack does not refuse the smaller
one does not refuse either, and the module is on both stacks while it runs.

So an import does what its statements do at the top level without the module on the stack.
-/

namespace ClassScript

open Run

/-- The relation of a run to itself under a smaller import stack. -/
def following : RunRelation Unit :=
  fun _ _ x y => x.Follows (y ())

theorem following_closed (env : Environment) : following.Closed env env.debug where
  pure a := Follows.pure a
  stop _ := Follows.stop _
  bind hx hf := Follows.bind hx hf
  get blind hf := Follows.getBlind (fun c imports log => blind () c imports log c.output) hf
  step blind _ keeps _ := Follows.blind (fun c imports log => ⟨log, blind c imports log⟩) fun c =>
    congrArg Frame.imports (keeps c).1
  debug line := Follows.debug env line
  atLine line hx := Follows.mapStop (fun f => ⟨f.withLine line, rfl⟩) hx
  assign name v := Follows.assign env name v
  own _ := Follows.update (fun _ _ _ => rfl) fun _ => rfl
  enter _ hx := Follows.inFrame id (fun _ _ covered => covered) (fun _ _ => rfl) (fun _ _ => rfl) hx
  fail _ := Follows.stop _
  attempt hx := Follows.attempt hx
  call _ _ _ hx :=
    Follows.inFrame id (fun _ _ covered => covered) (fun _ _ => rfl) (fun _ _ => rfl) hx.tracing

/-- What the larger stack does not refuse the smaller one does not refuse. -/
theorem follows_importModule {k : Evaluators} (hk : k.Related following fun _ => k)
    (env : Environment) (module : String) (line : Nat) :
    Follows (importModule env k module line) (importModule env k module line) := by
  have closed := following_closed env
  have found : Follows (findModule env module line) (findModule env module line) :=
    closed.findModule (p := fun _ => True) module line
  refine found.bind fun m => Follows.get fun c imports log covered => ?_
  dsimp only [Context.restack, Frame.restack]
  cases fresh : c.frame.imports.any fun other => other.path == m.1.path with
  | true => exact .afterFault _ _ _ _
  | false =>
    rw [covered.any_eq_false fresh]
    refine (Follows.pure ()).bind fun _ => (Follows.debug env _).bind fun _ => ?_
    refine Follows.bind (closed.parseLogged (p := fun _ => True) _) fun program => ?_
    refine Follows.bind (Follows.inFrame (m.1 :: ·) (fun _ _ covered => covered.cons m.1)
      (fun _ _ => rfl) (fun _ _ => rfl) (closed.execAll hk program.statements)) fun outcome => ?_
    exact closed.moduleOutcome (p := fun _ => True) module line outcome

/-- Evaluation follows itself on every budget: by induction on the budget. -/
theorem evaluators_follow (env : Environment) (n : Nat) :
    (evaluators env n).Related following fun _ => evaluators env n := by
  have closed := following_closed env
  induction n with
  | zero => exact ⟨fun _ _ => closed.stop trivial, fun _ => closed.stop trivial, closed.loop _⟩
  | succ n ih =>
    refine ⟨fun _ e => closed.evalStep ih e, fun s => closed.atLine s.line ?_, closed.loop _⟩
    exact closed.execStep ih fun module line _ => follows_importModule ih env module line

/-- The frame outside of every call, on the same stacks. -/
def Frame.atTop (f : Frame) : Frame :=
  { f with scope := none, self := none, owner := none }

section Import

variable {env : Environment} {module : String} {path : List String} {text : String}
  {program : Program} {c : Context}

/-- How an import ends when the statements of its module have ended. -/
def importEnd (module : String) (line : Nat) : Except Stop Outcome → Except Stop Outcome
  | .ok .normal | .ok (.returning _) => .ok .normal
  | .ok .breaking | .ok .continuing =>
    .error (.fault (.onLine (.loopControlInModule module) line))
  | .error stop => .error (stop.withLine line)

theorem findModule_apply (hpath : modulePath? env module = some path)
    (htext : env.files.readText? path = some text) (line : Nat) (c : Context) :
    findModule env module line c = (.ok (⟨module, path⟩, text), c) := by
  simp only [findModule, hpath, Option.bind_some, htext, Option.map_some, pure_apply]

/-- What is left of an import that finds a module with a tree, when nothing refuses it. -/
theorem importModule_apply (k : Evaluators) (hpath : modulePath? env module = some path)
    (htext : env.files.readText? path = some text) (fresh : ∀ m ∈ c.frame.imports, m.path ≠ path)
    (hparse : parseSource env.syntaxDepth text = .ok program) (line : Nat) :
    ∃ log, importModule env k module line c =
      (Run.inFrame (fun frame => frame.importing ⟨module, path⟩) Frame.leavingImport
          (k.execAll program.statements) >>= moduleOutcome module line) { c with log } := by
  obtain ⟨ts, hts, hprogram⟩ := parseSource_eq_ok hparse
  have unrefused : (c.frame.imports.any fun other => other.path == path) = false :=
    List.any_eq_false.mpr fun m hm heq => fresh m hm (eq_of_beq heq)
  obtain ⟨log, hlog⟩ := Run.debug_apply env
    (fun _ => "Importing module " ++ module ++ " from " ++ env.files.display path) c
  refine ⟨tokenLog env (ts.map Token.face) ++ log, ?_⟩
  rw [importModule, bind_apply, findModule_apply hpath htext line c]
  simp only [bind_apply, get_apply, unrefused, Run.refuseIf, pure_apply, hlog,
    parseLogged_apply env hts, hprogram, parseEnd, if_false, Bool.false_eq_true]

theorem exec_import_apply (hpath : modulePath? env module = some path)
    (htext : env.files.readText? path = some text) (fresh : ∀ m ∈ c.frame.imports, m.path ≠ path)
    (hparse : parseSource env.syntaxDepth text = .ok program) (n line : Nat) :
    ∃ log, ∀ result d,
      (evaluators env n).execAll program.statements
          { c with frame := c.frame.importing ⟨module, path⟩, log } = (result, d) →
        exec env (n + 1) (.importModule module line) c =
          (importEnd module line result, { d with frame := c.frame }) := by
  obtain ⟨log, hrun⟩ := importModule_apply (evaluators env n) hpath htext fresh hparse line
  refine ⟨log, fun result d hbody => ?_⟩
  have entered : Run.inFrame (fun frame => frame.importing ⟨module, path⟩) Frame.leavingImport
      ((evaluators env n).execAll program.statements) { c with log } =
        (result, { d with frame := c.frame }) := by
    have kept := keeps_execAll (evaluators_restore env n) program.statements
      { c with frame := c.frame.importing ⟨module, path⟩, log }
    rw [hbody] at kept
    have restored : d.frame.leavingImport.resuming c.frame = c.frame :=
      kept.sameStacks.leavingImport.resuming
    simp only [Run.inFrame, hbody, restored]
  have stepped : execStep env (evaluators env n) (.importModule module line) c =
      importModule env (evaluators env n) module line c := rfl
  rw [exec_succ, Run.atLine, Run.mapStop, stepped, hrun, bind_apply, entered]
  rcases result with stop | (_ | v | _ | _) <;> rfl

/-- An import of a module that is found, is not being imported and has a tree, once it ends without
a fault, is the execution of the module's statements outside of every call and without the module on
the import stack. That execution ends without a fault too; a `return` ends it and no more, and what
else stops it stops the import. Frame and debug log aside, both leave the same context. -/
theorem import_is_inlining (hpath : modulePath? env module = some path)
    (htext : env.files.readText? path = some text) (fresh : ∀ m ∈ c.frame.imports, m.path ≠ path)
    (hparse : parseSource env.syntaxDepth text = .ok program) {n line : Nat}
    (calm : Faultless (exec env (n + 1) (.importModule module line) c).1) :
    ∃ result d log,
      (evaluators env n).execAll program.statements { c with frame := c.frame.atTop } =
        (result, d) ∧ Faultless result ∧
      ((result = .ok .normal ∨ ∃ v, result = .ok (.returning v)) ∧
          exec env (n + 1) (.importModule module line) c =
            (.ok .normal, { d with frame := c.frame, log }) ∨
        ∃ stop, result = .error stop ∧
          exec env (n + 1) (.importModule module line) c =
            (.error stop, { d with frame := c.frame, log })) := by
  obtain ⟨log, himport⟩ := exec_import_apply hpath htext fresh hparse n line
  -- the module runs with itself on the stack, and is followed without
  let inside : Context := { c with frame := c.frame.importing ⟨module, path⟩, log }
  rcases hbody : (evaluators env n).execAll program.statements inside with ⟨result, d⟩
  have hexec := himport result d hbody
  rw [hexec] at calm
  have calm' : Faultless result := by
    rintro f rfl
    exact calm (f.withLine line) rfl
  have covered : Covered c.frame.imports inside.frame.imports := List.subset_cons_self _ _
  have follows := (following_closed env).execAll (evaluators_follow env n) program.statements
    inside c.frame.imports c.log covered
  rw [hbody] at follows
  obtain ⟨⟨log', hinlined⟩, _⟩ := follows calm'
  refine ⟨result, d.restack c.frame.imports log', d.log, hinlined, calm', ?_⟩
  rw [hexec]
  cases result with
  | ok outcome =>
    cases outcome with
    | normal => exact Or.inl ⟨Or.inl rfl, rfl⟩
    | returning v => exact Or.inl ⟨Or.inr ⟨v, rfl⟩, rfl⟩
    | breaking => exact absurd rfl (calm _)
    | continuing => exact absurd rfl (calm _)
  | error stop =>
    refine Or.inr ⟨stop, rfl, ?_⟩
    cases stop with
    | fault f => exact absurd rfl (calm' f)
    | _ => rfl

end Import

private def twoModules : Environment :=
  ⟨⟨"", [(["outer.mycs"], .file "import inner;\nreturn a;"), (["inner.mycs"], .file "a = null;")]⟩,
    some [], 9, 9, true⟩

private def insideCall : Context :=
  { Context.initial "" with
    frame := ⟨some {}, none, none, ["f"], [⟨"main", ["main.mycs"]⟩], 1⟩ }

/-- A module that imports another and returns early, imported inside a call while a third module is
on the way in. -/
theorem import_is_inlining_nested :
    Faultless (exec twoModules 6 (.importModule "outer" 1) insideCall).1 ∧
    ∃ result d log,
      (evaluators twoModules 5).execAll
          [.importModule "inner" 1, .returnValue (some (.var "a" 2)) 2]
          { insideCall with frame := insideCall.frame.atTop } = (result, d) ∧ Faultless result ∧
      ((result = .ok .normal ∨ ∃ v, result = .ok (.returning v)) ∧
          exec twoModules 6 (.importModule "outer" 1) insideCall =
            (.ok .normal, { d with frame := insideCall.frame, log }) ∨
        ∃ stop, result = .error stop ∧
          exec twoModules 6 (.importModule "outer" 1) insideCall =
            (.error stop, { d with frame := insideCall.frame, log })) := by
  have calm : Faultless (exec twoModules 6 (.importModule "outer" 1) insideCall).1 := by
    decide +kernel
  have scanned : scan "import inner;\nreturn a;" = ⟨[⟨.keyword, "import", 1, 1⟩,
      ⟨.identifier, "inner", 1, 8⟩, ⟨.separator, ";", 1, 13⟩, ⟨.keyword, "return", 2, 1⟩,
      ⟨.identifier, "a", 2, 8⟩, ⟨.separator, ";", 2, 9⟩], none⟩ := by decide +kernel
  have parsed : parseSource twoModules.syntaxDepth "import inner;\nreturn a;" =
      .ok ⟨[.importModule "inner" 1, .returnValue (some (.var "a" 2)) 2]⟩ := by
    rw [parseSource_of_tokenize (tokenize_of_scan scanned)]
    rfl
  have fresh : ∀ m ∈ insideCall.frame.imports, m.path ≠ ["outer.mycs"] := by decide
  exact ⟨calm, import_is_inlining rfl rfl fresh parsed calm⟩

end ClassScript
