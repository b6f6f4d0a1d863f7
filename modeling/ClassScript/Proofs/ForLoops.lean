import ClassScript.Proofs.LargerBudgets
import ClassScript.Proofs.LoopControl
import ClassScript.Proofs.SessionSequence

/-!
# A `for` loop is a `while` loop

The loops differ in where the iterator stands. In a `for` it runs after every round that goes on, in
a `while` it is the last statement of the body, which `continue` passes over. So the two do the same
unless a `continue` leaves the body. That one does takes a `continue` in the body that lies in no
inner loop.

A fault without a line gets that of the loop, and the iterator of the `while` lies one level deeper
than that of the `for`. The statement is therefore up to the lines of faults, and about budgets that
are large enough.
-/

namespace ClassScript

mutual

/-- The statement contains a `continue` outside of inner loops, functions and classes. -/
def Stmt.continues : Stmt → Bool
  | .continueLoop _ => true
  | .conditional _ thenBranch none _ => thenBranch.continues
  | .conditional _ thenBranch (some elseBranch) _ => thenBranch.continues || elseBranch.continues
  | .tryBlock body handlers _ => body.continues || handlers.continues
  | .simple _ | .print .. | .whileLoop .. | .forLoop .. | .breakLoop _ | .function ..
  | .returnValue .. | .classDecl .. | .interfaceDecl .. | .throwValue .. | .importModule .. => false

def Stmt.continuesAny : List Stmt → Bool
  | [] => false
  | s :: ss => s.continues || Stmt.continuesAny ss

def Block.continues : Block → Bool
  | .mk statements _ => Stmt.continuesAny statements

def Handlers.continues : Handlers → Bool
  | .catchOnly _ body | .finallyOnly body => body.continues
  | .catchFinally _ caught final => caught.continues || final.continues

end

theorem Handlers.continues_caught {h : Handlers} {name : String} {body : Block}
    (free : h.continues = false) (hc : h.caught? = some (name, body)) : body.continues = false := by
  cases h with
  | catchOnly x b => cases hc; exact free
  | finallyOnly b => cases hc
  | catchFinally x b b' => cases hc; exact (Bool.or_eq_false_iff.mp free).1

theorem Handlers.continues_final {h : Handlers} {body : Block} (free : h.continues = false)
    (hf : h.final? = some body) : body.continues = false := by
  cases h with
  | catchOnly x b => cases hf
  | finallyOnly b => cases hf; exact free
  | catchFinally x b b' => cases hf; exact (Bool.or_eq_false_iff.mp free).2

namespace Run

variable {α β : Type}

/-- Every result of `x` has the property `Q`. -/
def Gives (Q : α → Prop) (x : Run α) : Prop :=
  ∀ c a, (x c).1 = .ok a → Q a

namespace Gives

variable {P : α → Prop} {Q : β → Prop} {x : Run α}

theorem pure {a : α} (h : P a) : Gives P (Pure.pure a) := by
  rintro c b ⟨⟩
  exact h

theorem stop (s : Stop) : Gives P (Run.stop s) := by
  rintro c a ⟨⟩

theorem bind {f : α → Run β} (hx : Gives P x) (hf : ∀ a, P a → Gives Q (f a)) :
    Gives Q (x >>= f) := by
  intro c b h
  rw [bind_apply] at h
  rcases hr : x c with ⟨_ | a, c'⟩
  · rw [hr] at h
    cases h
  · rw [hr] at h
    exact hf a (hx c a (by rw [hr])) c' b h

/-- Nothing is known of the first result. -/
theorem after {f : α → Run β} (hf : ∀ a, Gives Q (f a)) : Gives Q (x >>= f) :=
  bind (P := fun _ => True) (fun _ _ _ => trivial) fun a _ => hf a

theorem mapStop (g : Stop → Stop) (hx : Gives P x) : Gives P (x.mapStop g) := by
  intro c a h
  rw [mapStop_eq] at h
  dsimp only at h
  cases hr : (x c).1 with
  | error s =>
    rw [hr] at h
    cases h
  | ok b =>
    rw [hr] at h
    cases h
    exact hx c _ hr

/-- A thrown value has become a result, of which nothing is known. -/
theorem attempt (hx : Gives P x) :
    Gives (fun r => ∀ a, r = .ok a → P a) x.attempt := by
  intro c r h
  rw [attempt_eq] at h
  dsimp only at h
  rintro a rfl
  apply hx c
  rcases hr : (x c).1 with (_ | _ | _ | _ | _ | _) | b <;> rw [hr] at h <;> cases h
  rfl

theorem resume {r : Except (Value × List String) α} (h : ∀ a, r = .ok a → P a) :
    Gives P (Run.resume r) := by
  cases r with
  | ok a => exact pure (h a rfl)
  | error e => exact stop _

end Gives

end Run

namespace Evaluators

open Run

variable {k : Evaluators}

/-- The execution of a statement ends with `continue` only if the statement contains one that is
free. -/
def Contained (k : Evaluators) : Prop :=
  ∀ s : Stmt, s.continues = false → Gives (· ≠ .continuing) (k.exec s)

theorem Contained.execAll (hk : k.Contained) {ss : List Stmt}
    (free : Stmt.continuesAny ss = false) : Gives (· ≠ .continuing) (k.execAll ss) := by
  induction ss with
  | nil => exact .pure nofun
  | cons s ss ih =>
    obtain ⟨head, tail⟩ := Bool.or_eq_false_iff.mp free
    refine (hk s head).bind fun outcome hne => ?_
    cases outcome with
    | normal => exact ih tail
    | returning v => exact .pure nofun
    | breaking => exact .pure nofun
    | continuing => exact absurd rfl hne

theorem Contained.execBlock (hk : k.Contained) {b : Block} (free : b.continues = false) :
    Gives (· ≠ .continuing) (k.execBlock b) := by
  obtain ⟨statements, line⟩ := b
  exact hk.execAll free

theorem Contained.execTry (hk : k.Contained) (env : Environment) {body : Block}
    {handlers : Handlers} (free : body.continues = false) (caught : handlers.continues = false) :
    Gives (· ≠ .continuing) (execTry env k body handlers) := by
  refine (hk.execBlock free).attempt.bind fun first hfirst => ?_
  have handled : Gives (fun r => ∀ outcome, r = .ok outcome → outcome ≠ .continuing)
      (handleRaised env k handlers first) := by
    unfold handleRaised
    split
    · rename_i name b hc
      refine .after fun _ => .after fun _ => (hk.execBlock ?_).attempt
      exact handlers.continues_caught caught hc
    · exact .pure hfirst
  refine handled.bind fun result hresult => ?_
  cases hf : handlers.final? with
  | none => exact .resume hresult
  | some final =>
    refine (hk.execBlock (handlers.continues_final caught hf)).bind fun outcome hne => ?_
    cases outcome with
    | normal => exact .resume hresult
    | returning v => exact .pure nofun
    | breaking => exact .pure nofun
    | continuing => exact absurd rfl hne

end Evaluators

open Run in
/-- A `continue` that ends a statement stands in it, outside of inner loops: by induction on the
budget. -/
theorem evaluators_contained (env : Environment) (n : Nat) : (evaluators env n).Contained := by
  induction n with
  | zero =>
    intro s _
    exact .stop _
  | succ n ih =>
    intro s free
    by_cases hs : s.isLoop = true
    · rintro c outcome h rfl
      cases exec_loop_not_control hs h
    apply Gives.mapStop
    cases s with
    | simple s => exact .after fun _ => .pure nofun
    | print e line => exact .after fun _ => .after fun _ => .pure nofun
    | conditional condition thenBranch elseBranch line =>
      refine .after fun b => ?_
      cases elseBranch with
      | none =>
        cases b with
        | true => exact ih.execBlock free
        | false => exact .pure nofun
      | some elseBranch =>
        obtain ⟨inThen, inElse⟩ := Bool.or_eq_false_iff.mp free
        cases b with
        | true => exact ih.execBlock inThen
        | false => exact ih.execBlock inElse
    | whileLoop condition body line => exact absurd rfl hs
    | forLoop initializer condition iterator body line => exact absurd rfl hs
    | breakLoop line => exact .pure nofun
    | continueLoop line => cases free
    | function name params body line => exact .after fun _ => .pure nofun
    | returnValue value line =>
      cases value with
      | none => exact .pure nofun
      | some e => exact .after fun _ => .pure nofun
    | classDecl name base interfaces members line => exact .after fun _ => .pure nofun
    | interfaceDecl name methods line => exact .after fun _ => .pure nofun
    | tryBlock body handlers line =>
      obtain ⟨inBody, inHandlers⟩ := Bool.or_eq_false_iff.mp free
      exact ih.execTry env inBody inHandlers
    | throwValue value line =>
      exact .after fun _ => .after fun _ => .after fun _ => .stop _
    | importModule module line =>
      refine .after fun m => .after fun c => .after fun _ => .after fun _ => .after fun p => ?_
      refine .after fun outcome => ?_
      cases outcome with
      | normal => exact .pure nofun
      | returning v => exact .pure nofun
      | breaking => exact .stop _
      | continuing => exact .stop _

/-- The fault at no line. -/
def Stop.unplaced : Stop → Stop
  | .fault f => .fault { f with line := none }
  | s => s

theorem Stop.unplaced_withLine (s : Stop) (line : Nat) :
    (s.withLine line).unplaced = s.unplaced := by
  cases s <;> rfl

namespace Run

variable {α β : Type}

/-- The same with its faults at no line. -/
def unplaced (x : Run α) : Run α :=
  x.mapStop Stop.unplaced

theorem unplaced_bind (x : Run α) (f : α → Run β) :
    (x >>= f).unplaced = x.unplaced >>= fun a => (f a).unplaced := by
  funext c
  rw [bind_apply, unplaced, unplaced, mapStop, mapStop, bind_apply]
  rcases x c with ⟨_ | a, c'⟩ <;> rfl

theorem unplaced_atLine (line : Nat) (x : Run α) : (x.atLine line).unplaced = x.unplaced := by
  funext c
  rw [unplaced, unplaced, atLine, mapStop, mapStop, mapStop]
  rcases x c with ⟨s | a, c'⟩
  · exact congrArg (fun s => (Except.error s, c')) (s.unplaced_withLine line)
  · rfl

theorem unplaced_loop (condition : Run Bool) (body : Run Outcome) (after : Run Unit) (bound : Nat) :
    (loop condition body after bound).unplaced =
      loop condition.unplaced body.unplaced after.unplaced bound := by
  induction bound with
  | zero => rfl
  | succ bound ih =>
    rw [loop, loop, unplaced_bind]
    congr 1
    funext b
    cases b with
    | false => rfl
    | true =>
      refine (unplaced_bind _ _).trans (congrArg (Bind.bind _) (funext fun outcome => ?_))
      cases outcome with
      | breaking => rfl
      | returning v => rfl
      | normal => exact (unplaced_bind _ _).trans (congrArg _ (funext fun _ => ih))
      | continuing => exact (unplaced_bind _ _).trans (congrArg _ (funext fun _ => ih))

/-- The body with one more statement at its end. -/
def followed (body : Run Outcome) (after : Run Unit) : Run Outcome := do
  match ← body with
  | .normal =>
    after
    return .normal
  | outcome => return outcome

/-- What runs after every round that goes on may as well end the round, unless rounds end with
`continue`. -/
theorem loop_followed {condition : Run Bool} {body : Run Outcome} {after : Run Unit}
    (contained : body.Gives (· ≠ .continuing)) (bound : Nat) :
    loop condition (body.followed after) (pure ()) bound = loop condition body after bound := by
  induction bound with
  | zero => rfl
  | succ bound ih =>
    rw [loop, loop]
    congr 1
    funext b
    cases b with
    | false => rfl
    | true =>
      funext c
      rw [if_pos rfl, if_pos rfl, bind_apply, bind_apply, followed, bind_apply]
      rcases hr : body c with ⟨_ | outcome, c'⟩
      · rfl
      · cases outcome with
        | breaking => rfl
        | returning v => rfl
        | continuing => exact absurd rfl (contained c _ (by rw [hr]))
        | normal =>
          dsimp only
          rw [bind_apply, bind_apply]
          rcases after c' with ⟨_ | _, c''⟩
          · rfl
          · exact congrFun ih c''

end Run

section Ending

variable {α : Type}

/-- With every budget that is large enough the run ends in this way. -/
def Terminates (run : Nat → Run α) (c : Context) (r : Except Stop α) (d : Context) : Prop :=
  r ≠ .error .exhausted ∧ ∃ n, ∀ m, n ≤ m → run m c = (r, d)

/-- No budget is large enough. -/
def Diverges (run : Nat → Run α) (c : Context) : Prop :=
  ∀ n, (run n c).1 = .error .exhausted

theorem Run.unplaced_apply (x : Run α) (c : Context) :
    x.unplaced c = ((x c).1.mapError Stop.unplaced, (x c).2) := by
  rw [unplaced, mapStop_eq]

theorem mapError_unplaced_exhausted {r : Except Stop α} :
    r.mapError Stop.unplaced = .error .exhausted ↔ r = .error .exhausted := by
  rcases r with s | a
  · cases s <;> simp [Except.mapError, Stop.unplaced]
  · simp [Except.mapError]

variable {run run' : Nat → Run α}

theorem terminates_of_enough (mono : ∀ {n m}, n ≤ m → (run n).Persists (run m)) {n : Nat}
    {c : Context} (enough : (run n c).1 ≠ .error .exhausted) :
    Terminates run c (run n c).1 (run n c).2 :=
  ⟨enough, n, fun _ h => mono h c enough⟩

/-- A run ends in one way at most. -/
theorem Terminates.eq_of_enough (mono : ∀ {n m}, n ≤ m → (run n).Persists (run m)) {c d : Context}
    {r : Except Stop α} (h : Terminates run c r d) {n : Nat}
    (enough : (run n c).1 ≠ .error .exhausted) : run n c = (r, d) := by
  obtain ⟨_, m, hm⟩ := h
  have later := mono (Nat.le_max_left n m) c enough
  rw [hm _ (Nat.le_max_right n m)] at later
  exact later.symm

/-- Runs that do the same with more budget, up to the lines of faults, either both end or both do
not. -/
theorem diverge_or_end_alike (mono : ∀ {n m}, n ≤ m → (run n).Persists (run m))
    (mono' : ∀ {n m}, n ≤ m → (run' n).Persists (run' m))
    (there : ∀ n, ∃ m, (run n).unplaced.Persists (run' m).unplaced)
    (back : ∀ n, ∃ m, (run' n).unplaced.Persists (run m).unplaced) (c : Context) :
    (Diverges run c ∧ Diverges run' c) ∨
    ∃ r r' d, Terminates run c r d ∧ Terminates run' c r' d ∧
      r.mapError Stop.unplaced = r'.mapError Stop.unplaced := by
  have transfer {x y : Run α} (h : x.unplaced.Persists y.unplaced)
      (enough : (x c).1 ≠ .error .exhausted) :
      (y c).1.mapError Stop.unplaced = (x c).1.mapError Stop.unplaced ∧ (y c).2 = (x c).2 := by
    have same := h c
    rw [x.unplaced_apply, y.unplaced_apply] at same
    exact Prod.ext_iff.mp (same fun hx => enough (mapError_unplaced_exhausted.mp hx))
  by_cases hd : Diverges run c
  · refine Or.inl ⟨hd, fun n => ?_⟩
    by_contra enough
    obtain ⟨m, hm⟩ := back n
    obtain ⟨same, _⟩ := transfer hm enough
    rw [hd m] at same
    exact enough (mapError_unplaced_exhausted.mp same.symm)
  · obtain ⟨n, enough⟩ := not_forall.mp hd
    obtain ⟨m, hm⟩ := there n
    obtain ⟨same, hcontext⟩ := transfer hm enough
    have enough' : (run' m c).1 ≠ .error .exhausted := by
      intro h
      rw [h] at same
      exact enough (mapError_unplaced_exhausted.mp same.symm)
    have ends' := terminates_of_enough mono' enough'
    rw [hcontext] at ends'
    exact Or.inr ⟨_, _, _, terminates_of_enough mono enough, ends', same.symm⟩

end Ending

/-- The block `{ initializer; while (condition) { body; iterator } }`. -/
def Block.ofFor (initializer : Simple) (condition : Expr) (iterator : Simple) (body : Block)
    (lines : Nat × Nat × Nat) : Block :=
  .mk [.simple initializer,
    .whileLoop condition (.mk (body.statements ++ [.simple iterator]) lines.2.2) lines.2.1] lines.1

section Loops

variable (env : Environment) (initializer : Simple) (condition : Expr) (iterator : Simple)
  (body : Block)

/-- The loop on a budget, with another for the iterator. -/
def loopOn (n m : Nat) : Run Outcome := do
  (execSimple env (evaluators env n) initializer).unplaced
  loop (evalCondition (evaluators env n) condition).unplaced
    ((evaluators env n).execBlock body).unplaced
    (execSimple env (evaluators env m) iterator).unplaced n

theorem persists_execSimple {n m : Nat} (h : n ≤ m) (s : Simple) :
    (execSimple env (evaluators env n) s).Persists (execSimple env (evaluators env m) s) :=
  (persisting_closed env).execSimple (evaluators_persist env h) s

theorem persists_loopOn {n n' m m' : Nat} (h : n ≤ n') (h' : m ≤ m') :
    (loopOn env initializer condition iterator body n m).Persists
      (loopOn env initializer condition iterator body n' m') := by
  have first := persists_execSimple env h initializer
  have tested : (evalCondition (evaluators env n) condition).Persists
      (evalCondition (evaluators env n') condition) :=
    (persisting_closed env).evalCondition (p := fun _ => True) (evaluators_persist env h) condition
  have round := persists_execAll env h body.statements
  have next := persists_execSimple env h' iterator
  refine (first.mapStop rfl).bind fun _ => ?_
  exact .loop (tested.mapStop rfl) (round.mapStop rfl) (next.mapStop rfl) h

theorem unplaced_exec_for (line n : Nat) :
    (exec env (n + 1) (.forLoop initializer condition iterator body line)).unplaced =
      loopOn env initializer condition iterator body n n := by
  rw [exec_succ, Run.unplaced_atLine, execStep, Run.unplaced_bind, loopOn]
  congr 1
  funext _
  exact Run.unplaced_loop _ _ _ _

theorem Evaluators.execAll_singleton (k : Evaluators) (s : Stmt) : k.execAll [s] = k.exec s := by
  refine Eq.trans ?_ (bind_pure (k.exec s))
  rw [execAll]
  congr 1
  funext outcome
  cases outcome <;> rfl

/-- A simple statement as a statement of its own. -/
theorem unplaced_exec_simple (n : Nat) (s : Simple) :
    (exec env (n + 1) (.simple s)).unplaced = do
      (execSimple env (evaluators env n) s).unplaced
      return .normal := by
  rw [exec_succ, Run.unplaced_atLine, execStep, Run.unplaced_bind]
  rfl

/-- The body of the `while` is that of the `for`, followed by the iterator. -/
theorem unplaced_execAll_append (n : Nat) (ss : List Stmt) (s : Simple) :
    ((evaluators env (n + 1)).execAll (ss ++ [.simple s])).unplaced =
      ((evaluators env (n + 1)).execAll ss).unplaced.followed
        (execSimple env (evaluators env n) s).unplaced := by
  have single : ((evaluators env (n + 1)).execAll [.simple s]).unplaced = do
      (execSimple env (evaluators env n) s).unplaced
      return .normal := by
    rw [Evaluators.execAll_singleton]
    exact unplaced_exec_simple env n s
  funext c
  rw [Run.followed, Run.bind_apply, Run.unplaced_apply ((evaluators env (n + 1)).execAll ss)]
  rcases hr : (evaluators env (n + 1)).execAll ss c with ⟨r, d⟩
  by_cases normal : r = .ok .normal
  · subst normal
    rw [Run.unplaced_apply, Evaluators.execAll_append_of_normal hr, ← Run.unplaced_apply, single]
    rfl
  · have left : ((evaluators env (n + 1)).execAll ss c).1 ≠ .ok .normal := by
      rw [hr]
      exact normal
    rw [Run.unplaced_apply, Evaluators.execAll_append_of_not_normal left, hr]
    rcases r with stop | outcome
    · rfl
    · cases outcome with
      | normal => exact absurd rfl normal
      | returning v => rfl
      | breaking => rfl
      | continuing => rfl

theorem unplaced_execBlock_ofFor (contained : body.continues = false) (lines : Nat × Nat × Nat)
    (n : Nat) :
    ((evaluators env (n + 2)).execBlock
        (.ofFor initializer condition iterator body lines)).unplaced =
      loopOn env initializer condition iterator body (n + 1) n := by
  have rounds : (exec env (n + 2) (.whileLoop condition
        (.mk (body.statements ++ [.simple iterator]) lines.2.2) lines.2.1)).unplaced =
      loop (evalCondition (evaluators env (n + 1)) condition).unplaced
        ((evaluators env (n + 1)).execBlock body).unplaced
        (execSimple env (evaluators env n) iterator).unplaced (n + 1) := by
    have never : ((evaluators env (n + 1)).execBlock body).unplaced.Gives (· ≠ .continuing) :=
      ((evaluators_contained env (n + 1)).execBlock contained).mapStop _
    rw [exec_succ, Run.unplaced_atLine, execStep, Run.unplaced_loop, ← Run.loop_followed never]
    congr 1
    exact unplaced_execAll_append env n body.statements iterator
  rw [Block.ofFor, Evaluators.execBlock, Block.statements, Evaluators.execAll, Run.unplaced_bind,
    loopOn]
  change (exec env (n + 2) (.simple initializer)).unplaced >>= _ = _
  rw [unplaced_exec_simple, bind_assoc]
  congr 1
  funext _
  rw [pure_bind]
  dsimp only
  rw [Evaluators.execAll_singleton]
  exact rounds

end Loops

/-- A `for` loop whose body contains no `continue` outside of inner loops does what the `while` loop
does that has the iterator at the end of its body. From every context either neither of them ends,
or both end in one and the same context, with the same outcome or the same stop, up to the line of a
fault. -/
theorem for_loop_is_while_loop (env : Environment) (initializer : Simple) (condition : Expr)
    (iterator : Simple) (body : Block) (line : Nat) (lines : Nat × Nat × Nat)
    (contained : body.continues = false) (c : Context) :
    (Diverges (fun n => exec env n (.forLoop initializer condition iterator body line)) c ∧
      Diverges (fun n => (evaluators env n).execBlock
        (.ofFor initializer condition iterator body lines)) c) ∨
    ∃ r r' d,
      Terminates (fun n => exec env n (.forLoop initializer condition iterator body line)) c r d ∧
      Terminates (fun n => (evaluators env n).execBlock
        (.ofFor initializer condition iterator body lines)) c r' d ∧
      r.mapError Stop.unplaced = r'.mapError Stop.unplaced := by
  have blockMono {n m : Nat} (h : n ≤ m) :
      ((evaluators env n).execBlock (.ofFor initializer condition iterator body lines)).Persists
        ((evaluators env m).execBlock (.ofFor initializer condition iterator body lines)) :=
    persists_execAll env h _
  have block := unplaced_execBlock_ofFor env initializer condition iterator body contained lines
  have loops {n n' m m' : Nat} (h : n ≤ n') (h' : m ≤ m') :=
    persists_loopOn env initializer condition iterator body h h'
  refine diverge_or_end_alike (fun h => persists_exec env h _) blockMono (fun n => ?_)
    (fun n => ?_) c
  · refine ⟨n + 2, ?_⟩
    rw [block n]
    cases n with
    | zero => exact .exhausted
    | succ n =>
      rw [unplaced_exec_for]
      exact loops (by omega) (by omega)
  · have more : Run.Persists _ (Run.unplaced _) := (blockMono (Nat.le_add_right n 2)).mapStop rfl
    rw [block n] at more
    refine ⟨n + 2, more.trans ?_⟩
    rw [unplaced_exec_for]
    exact loops (by omega) (by omega)

private def withoutFiles : Environment := ⟨⟨"", []⟩, none, 9, 9, false⟩

private def printing : Block := .mk [.print (.var "b" 1) 1] 1

/-- The loop `for (b = true; b; b = false) print b;` ends normally after one round, so the block
with the `while` does. -/
theorem for_loop_is_while_loop_once : ∃ d,
    Terminates (fun n => (evaluators withoutFiles n).execBlock
      (.ofFor (.assign "b" (.boolean true 1) 1) (.var "b" 1) (.assign "b" (.boolean false 1) 1)
        printing (1, 1, 1))) (.initial "") (.ok .normal) d ∧
    d.output = "true\n" := by
  rcases for_loop_is_while_loop withoutFiles (.assign "b" (.boolean true 1) 1) (.var "b" 1)
      (.assign "b" (.boolean false 1) 1) printing 1 (1, 1, 1) rfl (.initial "")
    with ⟨never, _⟩ | ⟨r, r', d, ends, ends', same⟩
  · cases never 4
  · have run := ends.eq_of_enough (fun h => persists_exec _ h _) (n := 4) nofun
    obtain ⟨hr, hd⟩ := Prod.ext_iff.mp run
    cases hr
    have normal : r' = .ok .normal := by
      rcases r' with stop | outcome
      · cases same
      · cases same
        rfl
    rw [normal] at ends'
    have written : d.output = "" ++ ("true" ++ "\n") := (congrArg Context.output hd).symm
    exact ⟨d, ends', written⟩

end ClassScript
