import ClassScript.Proofs.History
import ClassScript.Proofs.RelatedRuns

/-!
# The line of the innermost statement

Some faults are raised without a line. On its way out of the code such a fault passes through the
statements being executed, the innermost of them first, and each gives its own line to a fault that
has none. Here the line takes the other way: a statement hands its line down to the evaluation of
its expressions, and where an expression raises a fault without a line, the fault gets that one on
the spot. The two ways agree. So the line of such a fault is that of the innermost statement that
was being executed when it was raised, whatever was around it: a call runs statements of its own,
the fields of a new object are initialized on behalf of the statement that makes it, and the two
statements in the header of a `for` have lines of their own.
-/

namespace ClassScript

/-- Executes a statement, given for every line the evaluation of parts on behalf of a statement on
that line. -/
def execStepLined (env : Environment) (k : Nat → Evaluators) : Stmt → Run Outcome
  | .forLoop initializer condition iterator body line => do
    execSimple env (k initializer.line) initializer
    loop (evalCondition (k line) condition) ((k line).execBlock body)
      (execSimple env (k iterator.line) iterator) (k line).bound
  | s => execStep env (k s.line) s

mutual

/-- Evaluation on behalf of a statement on the given line, which faults get where they arise. -/
def evalLined (env : Environment) : Nat → Nat → Expr → Run Value
  | 0, _, _ => Run.stop .exhausted
  | n + 1, line, e =>
    Run.atLine line (evalStep env ⟨evalLined env n line, execLined env n, n⟩ e)

/-- Execution that hands lines down. -/
def execLined (env : Environment) : Nat → Stmt → Run Outcome
  | 0, _ => Run.stop .exhausted
  | n + 1, s =>
    Run.atLine s.line
      (execStepLined env (fun line => ⟨evalLined env n line, execLined env n, n⟩) s)

end

/-- The evaluators that hand a line down. -/
def lined (env : Environment) (n line : Nat) : Evaluators :=
  ⟨evalLined env n line, execLined env n, n⟩

namespace Run

variable {α β : Type}

theorem atLine_bind (line : Nat) (x : Run α) (f : α → Run β) :
    (x >>= f).atLine line = x.atLine line >>= fun a => (f a).atLine line := by
  funext c
  rw [bind_apply, atLine, mapStop, atLine, mapStop, bind_apply]
  rcases x c with ⟨_ | a, c'⟩ <;> rfl

/-- The first line stays. -/
theorem atLine_atLine (line line' : Nat) (x : Run α) :
    (x.atLine line).atLine line' = x.atLine line := by
  funext c
  rw [atLine, atLine, mapStop, mapStop]
  rcases x c with ⟨stop | a, c'⟩
  · rcases stop with _ | ⟨cause, _ | l, trace⟩ | _ | _ | _ | _ <;> rfl
  · rfl

theorem atLine_inFrame (line : Nat) (enter leave : Frame → Frame) (x : Run α) :
    (inFrame enter leave x).atLine line = inFrame enter leave (x.atLine line) := by
  funext c
  simp only [atLine, mapStop_eq, inFrame_apply]

end Run

/-- Two runs that differ at most in giving a fault without a line this one. -/
def filling (line : Nat) : RunRelation Unit :=
  fun _ _ x y => x.atLine line = (y ()).atLine line

theorem filling_core (env : Environment) (line : Nat) : (filling line).Core env env.debug where
  pure _ := rfl
  stop _ := rfl
  bind hx hf := by
    simp only [filling, Run.atLine_bind] at hx hf ⊢
    rw [hx, funext hf]
  get _ hf := by
    simp only [filling, Run.atLine_bind] at hf ⊢
    rw [funext hf]
  step _ _ _ _ := rfl
  debug _ := rfl
  assign _ _ := rfl
  own _ := rfl
  enter _ hx := by
    simp only [filling, Run.initializing, Run.atLine_inFrame] at hx ⊢
    rw [hx]

section Rules

variable {env : Environment} {k : Evaluators} {k' : Nat → Evaluators}
  (related : ∀ line, k.Related (filling line) fun _ => k' line)
  (same : ∀ line, (k' line).execAll = k.execAll)

include related in
/-- A simple statement fills in its own line. -/
theorem execSimple_eq_lined (s : Simple) : execSimple env k s = execSimple env (k' s.line) s := by
  have core := filling_core env s.line
  have hk := related s.line
  cases s with
  | assign name value line =>
    exact core.bind (hk.eval InCall value) fun v => core.assign name v
  | assignMember target member value line =>
    exact core.assignMember hk (p := InCall) target member value line
  | expr value line => exact core.bind (hk.eval InCall value) fun _ => core.pure _

include same in
theorem invokes_lined (line : Nat) : (filling line).Invokes env env.debug k fun _ => k' line := by
  intro p label f args receiver line'
  change Run.atLine line _ = Run.atLine line (invoke env (k' line) label f args receiver line')
  simp only [invoke, runBody, Evaluators.execBlock, same]

include related same in
/-- A statement whose parts are all on its own line. -/
theorem execStep_filling {s : Stmt} (here : ∀ x ∈ s.simples, x.line = s.line) :
    (execStep env k s).atLine s.line = (execStep env (k' s.line) s).atLine s.line := by
  have core := filling_core env s.line
  have hk := related s.line
  refine core.execStep hk (fun x hx => ?_) fun transfer => ?_
  · have equal : execSimple env k x = execSimple env (k' x.line) x :=
      execSimple_eq_lined related x
    rw [here x hx] at equal
    exact congrArg (Run.atLine s.line) equal
  · cases s with
    | throwValue value line =>
      exact core.bind (hk.eval InCall value) fun v => rfl
    | tryBlock body handlers line =>
      have equal : execTry env (k' line) body handlers = execTry env k body handlers := by
        simp only [execTry, handleRaised, Evaluators.execBlock, same]
      exact congrArg (Run.atLine line) equal.symm
    | importModule module line =>
      have equal : importModule env (k' line) module line = importModule env k module line := by
        simp only [importModule, same]
      exact congrArg (Run.atLine line) equal.symm
    | _ => cases transfer

include related same in
theorem execStep_lined (s : Stmt) :
    (execStep env k s).atLine s.line = (execStepLined env k' s).atLine s.line := by
  cases s with
  | forLoop initializer condition iterator body line =>
    have core := filling_core env line
    have hk := related line
    have header (x : Simple) : (filling line) InCall Unit (execSimple env k x)
        fun _ => execSimple env (k' x.line) x :=
      congrArg (Run.atLine line) (execSimple_eq_lined related x)
    exact core.bind (header initializer) fun _ =>
      hk.loop (core.evalCondition hk condition) (core.execBlock hk body) (header iterator)
  | simple s =>
    exact execStep_filling related same fun x hx => congrArg Simple.line (List.mem_singleton.mp hx)
  | _ => exact execStep_filling related same fun _ hx => nomatch hx

end Rules

theorem execAll_eq_of_exec {k k' : Evaluators} (h : k.exec = k'.exec) : k.execAll = k'.execAll := by
  funext ss
  induction ss with
  | nil => rfl
  | cons s ss ih => rw [Evaluators.execAll, Evaluators.execAll, h, ih]

/-- To give a fault the line of a statement on its way out is to hand the line down: by induction on
the budget. -/
theorem lines_handed_down (env : Environment) (n : Nat) :
    (∀ s, exec env n s = execLined env n s) ∧
      ∀ line e, (eval env n e).atLine line = evalLined env n line e := by
  induction n with
  | zero => exact ⟨fun _ => rfl, fun _ _ => rfl⟩
  | succ n ih =>
    obtain ⟨executed, evaluated⟩ := ih
    have exec_eq : execLined env n = exec env n := (funext executed).symm
    have same (line : Nat) : (lined env n line).execAll = (evaluators env n).execAll :=
      execAll_eq_of_exec exec_eq
    have related (line : Nat) :
        (evaluators env n).Related (filling line) fun _ => lined env n line := by
      refine ⟨fun _ e => ?_, fun s => ?_, fun hc hb ha => (filling_core env line).loop n hc hb ha⟩
      · change _ = Run.atLine line (evalLined env n line e)
        rw [← evaluated, Run.atLine_atLine]
        rfl
      · change _ = Run.atLine line (execLined env n s)
        rw [exec_eq]
        rfl
    constructor
    · exact execStep_lined related same
    · intro line e
      exact (filling_core env line).evalStep (p := InCall) (related line)
        (invokes_lined same line) e

end ClassScript
