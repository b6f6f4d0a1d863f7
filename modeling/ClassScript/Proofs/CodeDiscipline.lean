import ClassScript.Proofs.Dispatch
import ClassScript.Proofs.History
import ClassScript.Proofs.LayoutIndependence
import ClassScript.Proofs.OrdinaryCauses
import ClassScript.Proofs.Rendering

/-!
# Runs of disciplined code

A discipline is a condition on code together with what runs of such code may do: which faults it may
end with, whether it may throw, and whether loop control may leave it. Functions and methods are
stored and called much later, so a run keeps to a discipline only as long as all the code that the
context stores does, and all the modules it imports do. Which modules those are is read off the
history of the run.

A run that keeps to a discipline runs disciplined code only, and the history shows where its fault
has come from: the line of the fault is a line of an expression or a statement that ended with it.

Keeping to a discipline is closed under the ways in which runs are put together, and the basic
operations have it.
-/

namespace ClassScript

def Outcome.isLoopControl : Outcome → Bool
  | .breaking | .continuing => true
  | .normal | .returning _ => false

def Simple.exprs : Simple → List Expr
  | .assign _ e _ | .expr e _ => [e]
  | .assignMember e _ v _ => [e, v]

def Member.exprs : Member → List Expr
  | .field _ _ e _ => e.toList
  | .method .. => []

namespace Stmt

def isLoopControl : Stmt → Bool
  | .breakLoop _ | .continueLoop _ => true
  | _ => false

/-- The expressions right inside a statement. -/
def exprs : Stmt → List Expr
  | .simple s => s.exprs
  | .print e _ | .throwValue e _ | .conditional e _ _ _ | .whileLoop e _ _ => [e]
  | .forLoop i c u _ _ => c :: (i.exprs ++ u.exprs)
  | .returnValue e _ => e.toList
  | .classDecl _ _ _ ms _ => ms.flatMap Member.exprs
  | _ => []

/-- The lines of a statement, those of its expressions and bodies left aside. -/
def lines : Stmt → List Nat
  | .forLoop i _ u _ line => [line, i.line, u.line]
  | s => [s.line]

/-- Whether the bodies of a statement lie in a loop of the same function, method or source, given
whether the statement does. -/
def opensLoop (inLoop : Bool) : Stmt → Bool
  | .whileLoop .. | .forLoop .. => true
  | .function .. | .classDecl .. => false
  | _ => inLoop

theorem line_mem_lines (s : Stmt) : s.line ∈ s.lines := by
  cases s <;> simp [lines, line]

end Stmt

structure Discipline where
  /-- The statements, inside of a loop or not. -/
  stmt : Bool → Stmt → Prop
  expr : Expr → Prop
  /-- The faults. -/
  cause : Cause → Prop
  /-- Whether values may be thrown. -/
  raises : Prop
  exprs_of {l : Bool} {s : Stmt} : stmt l s → ∀ e ∈ s.exprs, expr e
  operands_of {e : Expr} : expr e → ∀ e' ∈ e.operands, expr e'
  inside {l : Bool} {s : Stmt} :
    stmt l s → ∀ b ∈ s.bodies, ∀ s' ∈ b.statements, stmt (s.opensLoop l) s'
  throws {l : Bool} {e : Expr} {n : Nat} : stmt l (.throwValue e n) → raises
  /-- Loop control stays inside of loops, or else all faults are allowed. -/
  control {l : Bool} {s : Stmt} : stmt l s → s.isLoopControl = true → l = true ∨ ∀ c, cause c
  ordinary {c : Cause} : c.isLoopControl = false → cause c

namespace Discipline

variable (D : Discipline)

def exprs (es : List Expr) : Prop :=
  ∀ e ∈ es, D.expr e

def code (inLoop : Bool) (ss : List Stmt) : Prop :=
  ∀ s ∈ ss, D.stmt inLoop s

def member (m : Member) : Prop :=
  D.exprs m.exprs ∧ ∀ b ∈ m.bodies, D.code false b.statements

/-- How statements may end, inside of a loop or not. -/
def Leaves (inLoop : Bool) (outcome : Outcome) : Prop :=
  outcome.isLoopControl = true → inLoop = true ∨ ∀ c, D.cause c

/-- How a run may stop, cause and line of a fault having the given property. -/
def Allows (line : Cause → Nat → Prop) : Stop → Prop
  | .fault f => D.cause f.cause ∧ ∀ n ∈ f.line, line f.cause n
  | .raised _ _ => D.raises
  | .malformed _ | .overflow _ | .badIndex | .exhausted => True

/-- How a run may end, the place of a fault and a result having the given properties. -/
def Ends {α : Type} (line : Cause → Nat → Prop) (Q : α → Prop) : Except Stop α → Prop
  | .ok a => Q a
  | .error stop => D.Allows line stop

variable {D}

theorem leaves_of_not_control {l : Bool} {outcome : Outcome}
    (h : outcome.isLoopControl = false) : D.Leaves l outcome := by
  intro hcontrol
  rw [h] at hcontrol
  cases hcontrol

/-- Where loop control leaves code outside of every loop, all faults are allowed. -/
theorem cause_of_escape {outcome : Outcome} (h : D.Leaves false outcome)
    (control : outcome.isLoopControl = true) (cause : Cause) : D.cause cause := by
  rcases h control with hl | all
  · cases hl
  · exact all cause

theorem Allows.mono {line line' : Cause → Nat → Prop} {stop : Stop} (h : D.Allows line stop)
    (sub : ∀ cause n, line cause n → line' cause n) : D.Allows line' stop := by
  cases stop with
  | fault f => exact ⟨h.1, fun n hn => sub f.cause n (h.2 n hn)⟩
  | _ => exact h

theorem Ends.mono {α : Type} {line line' : Cause → Nat → Prop} {Q Q' : α → Prop}
    {r : Except Stop α} (h : D.Ends line Q r) (lines : ∀ cause n, line cause n → line' cause n)
    (sub : ∀ a, Q a → Q' a) : D.Ends line' Q' r := by
  cases r with
  | ok a => exact sub a h
  | error stop => exact Allows.mono h lines

theorem allows_withLine {line : Cause → Nat → Prop} {stop : Stop} {n : Nat}
    (h : D.Allows line stop) (hn : ∀ cause, line cause n) : D.Allows line (stop.withLine n) := by
  cases stop with
  | fault f =>
    obtain ⟨cause, _ | l, trace⟩ := f
    · exact ⟨h.1, by rintro m ⟨⟩; exact hn cause⟩
    · exact h
  | _ => exact h

theorem allows_withTrace {line : Cause → Nat → Prop} {stop : Stop} {calls : List String}
    (h : D.Allows line stop) : D.Allows line (stop.withTrace calls) := by
  cases stop <;> exact h

end Discipline

/-- The statement declares the function under this name. -/
def Stmt.DeclaresFunction (s : Stmt) (name : String) (f : Function) : Prop :=
  ∃ line, s = .function name f.params f.body line

/-- The statement declares the class, whichever class of the table its base is. -/
def Stmt.DeclaresClass (s : Stmt) (d : ClassDef) : Prop :=
  ∃ base b interfaces members line, s = .classDecl d.name base interfaces members line ∧
    d = .ofMembers d.name b interfaces members

/-- The members of a class that a disciplined statement declares are disciplined. -/
theorem Discipline.member_of_declared {D : Discipline} {l : Bool} {s : Stmt} {d : ClassDef}
    (h : D.stmt l s) (declared : s.DeclaresClass d) {m : Member} (hm : m ∈ d.members.values) :
    D.member m := by
  obtain ⟨base, b, interfaces, members, line, rfl, hd⟩ := declared
  rw [hd] at hm
  obtain ⟨p, hp, rfl⟩ := List.mem_map.mp hm
  have hmem := (Bindings.ofList_spec (members.map fun m : Member => (m.name, m))).2 p hp
  obtain ⟨m', hm', rfl⟩ := List.mem_map.mp hmem
  constructor
  · exact fun e he => D.exprs_of h e (List.mem_flatMap.mpr ⟨m', hm', he⟩)
  · exact fun b hb => D.inside h b (List.mem_flatMap.mpr ⟨m', hm', hb⟩)

/-- All classes of the table have disciplined declarations, and remembered answers are members of
them. -/
structure ClassTable.Holds (t : ClassTable) (D : Discipline) : Prop where
  classes {i : Nat} {d : ClassDef} :
    t.classes[i]? = some d → ∃ l s, D.stmt l s ∧ s.DeclaresClass d
  known {r : Resolution} : r ∈ t.known.values → ∀ owner m, r = .found owner m →
    ∃ (i : Nat) (d : ClassDef), t.classes[i]? = some d ∧ m ∈ d.members.values

/-- All functions and classes of the context have disciplined declarations. -/
structure Context.Stores (c : Context) (D : Discipline) : Prop where
  functions {name : String} {f : Function} :
    c.functions.get? name = some f → ∃ l s, D.stmt l s ∧ s.DeclaresFunction name f
  classes : c.classes.Holds D

theorem Context.Stores.mono {c : Context} {D D' : Discipline} (h : c.Stores D)
    (sub : ∀ l s, D.stmt l s → D'.stmt l s) : c.Stores D' := by
  refine ⟨fun hf => ?_, fun hd => ?_, h.classes.known⟩
  · obtain ⟨l, s, hs, declared⟩ := h.functions hf
    exact ⟨l, s, sub l s hs, declared⟩
  · obtain ⟨l, s, hs, declared⟩ := h.classes.classes hd
    exact ⟨l, s, sub l s hs, declared⟩

/-- At its start a session stores no code. -/
theorem Context.stores_initial (D : Discipline) (input : String) :
    (Context.initial input).Stores D := by
  constructor
  · intro name f hf
    cases hf
  · constructor
    · intro i d hd
      cases hd
    · intro r hr
      cases hr

theorem Context.Stores.code {c : Context} {D : Discipline} (h : c.Stores D) {name : String}
    {f : Function} (hf : c.functions.get? name = some f) : D.code false f.body.statements := by
  obtain ⟨l, s, hs, line, rfl⟩ := h.functions hf
  exact D.inside hs f.body (List.mem_singleton_self _)

theorem Context.Stores.of_same {c d : Context} {D : Discipline} (h : c.Stores D)
    (functions : d.functions = c.functions) (classes : d.classes = c.classes) : d.Stores D :=
  ⟨functions ▸ h.functions, classes ▸ h.classes⟩

namespace ClassTable.Holds

variable {t u : ClassTable} {D : Discipline}

theorem member (h : t.Holds D) {i : Nat} {d : ClassDef} (hd : t.classes[i]? = some d) {m : Member}
    (hm : m ∈ d.members.values) : D.member m := by
  obtain ⟨l, s, hs, declared⟩ := h.classes hd
  exact Discipline.member_of_declared hs declared hm

/-- What a search finds is a member of a class in the table. -/
theorem found_of_search? {i : Nat} {name : String} {r : Resolution}
    (hr : t.search? i name = some r) : ∀ owner m, r = .found owner m →
      ∃ (i : Nat) (d : ClassDef), t.classes[i]? = some d ∧ m ∈ d.members.values := by
  rintro owner m rfl
  obtain ⟨chain, _, hfound⟩ := Option.map_eq_some_iff.mp hr
  obtain ⟨d, hd, hget⟩ := Option.bind_eq_some_iff.mp (ClassTable.resolveOn_found hfound).2
  exact ⟨owner, d, hd, Bindings.mem_values_of_get? hget⟩

theorem resolve? (h : t.Holds D) {i : Nat} {name : String} {r : Resolution}
    (hr : t.resolve? i name = some (r, u)) :
    (∀ owner m, r = .found owner m → D.member m) ∧ u.Holds D := by
  have members (found : ∀ owner m, r = .found owner m →
      ∃ (i : Nat) (d : ClassDef), t.classes[i]? = some d ∧ m ∈ d.members.values) :
      ∀ owner m, r = .found owner m → D.member m := by
    intro owner m hrm
    obtain ⟨i', d, hd, hm⟩ := found owner m hrm
    exact h.member hd hm
  rw [ClassTable.resolve?] at hr
  cases hknown : t.known.get? (i, name) with
  | some r' =>
    rw [hknown] at hr
    cases hr
    exact ⟨members (h.known (Bindings.mem_values_of_get? hknown)), h⟩
  | none =>
    rw [hknown] at hr
    obtain ⟨r', hsearch, heq⟩ := Option.map_eq_some_iff.mp hr
    cases heq
    have found := found_of_search? hsearch
    refine ⟨members found, h.classes, fun hmem => ?_⟩
    rcases Bindings.mem_values_insert hmem with rfl | hold
    · exact found
    · exact h.known hold

theorem findMethod? (h : t.Holds D) {i : Option Nat} {name : String} {owner : Nat} {m : Member}
    (hr : t.findMethod? i name = some (.found owner m)) : D.member m := by
  cases i with
  | none => cases hr
  | some i =>
    obtain ⟨chain, _, hfound⟩ := Option.map_eq_some_iff.mp hr
    cases hnearest : t.nearest? Member.isMethod name chain with
    | none =>
      rw [hnearest] at hfound
      cases hfound
    | some p =>
      rw [hnearest] at hfound
      cases hfound
      obtain ⟨d, hd, hget⟩ := Option.bind_eq_some_iff.mp (ClassTable.nearest?_sound hnearest).2.1
      exact h.member hd (Bindings.mem_values_of_get? hget)

theorem define (h : t.Holds D) {d : ClassDef} {index : Nat}
    (hd : ∃ l s, D.stmt l s ∧ s.DeclaresClass d) (hdef : t.define d = .ok (index, u)) :
    u.Holds D := by
  obtain ⟨_, _, rfl⟩ := ClassTable.WellFormed.define_eq hdef
  constructor
  · intro i d' hd'
    rw [Array.getElem?_push] at hd'
    by_cases hi : i = t.classes.size
    · rw [if_pos hi] at hd'
      cases hd'
      exact hd
    · rw [if_neg hi] at hd'
      exact h.classes hd'
  · intro r hr owner m hrm
    obtain ⟨i, d', hd', hm⟩ := h.known hr owner m hrm
    have hi : i ≠ t.classes.size := by
      rintro rfl
      simp at hd'
    refine ⟨i, d', ?_, hm⟩
    rw [Array.getElem?_push, if_neg hi]
    exact hd'

end ClassTable.Holds

/-- If the event is an import about to be executed, then the code of the module is disciplined. -/
def Event.ImportsCode (env : Environment) (D : Discipline) (ev : Event) : Prop :=
  ∀ module line path text p, ev.moment = .executing (.importModule module line) →
    modulePath? env module = some path → env.files.readText? path = some text →
    parseSource env.syntaxDepth text = .ok p → D.code false p.statements

namespace Moment

/-- An expression or a statement has just ended with a fault of this cause on this line, which is
one of its own. -/
def Blames (cause : Cause) (n : Nat) : Moment → Prop
  | .evaluated e (.error (.fault f)) => f.cause = cause ∧ f.line = some n ∧ e.line = n
  | .executed s (.error (.fault f)) => f.cause = cause ∧ f.line = some n ∧ n ∈ s.lines
  | _ => False

/-- The code that is being run is disciplined. -/
def Keeps (D : Discipline) : Moment → Prop
  | .evaluating e | .evaluated e _ => D.expr e
  | .executing s | .executed s _ => ∃ l, D.stmt l s
  | .began | .ended _ => True

end Moment

/-- One of the given lines, or one that an event blames. -/
def Traced (own : Nat → Prop) (events : List Event) (cause : Cause) (n : Nat) : Prop :=
  own n ∨ ∃ ev ∈ events, ev.moment.Blames cause n

theorem Traced.mono {own : Nat → Prop} {events events' : List Event} {cause : Cause} {n : Nat}
    (h : Traced own events cause n) (sub : ∀ ev ∈ events, ev ∈ events') :
    Traced own events' cause n := by
  rcases h with hown | ⟨ev, hev, blames⟩
  · exact Or.inl hown
  · exact Or.inr ⟨ev, sub ev hev, blames⟩

namespace Run

variable {α β : Type}

/-- From every context `x` has a history, `y` being `x` with notes. Under the condition `A`, as long
as stored code is disciplined and so are the modules that disciplined code imports, `x` stores and
runs no other code and ends as the discipline allows: with a result that has the property `Q`, or
with a fault whose line, if it has one, is one of its `own` or is blamed by an event. -/
def Obeys (env : Environment) (D : Discipline) (own : Nat → Prop) (A : Prop) (Q : α → Prop)
    (x : Run α) (y : Scribe → Run α) : Prop :=
  ∀ c, ∃ events, x.History y c events ∧
    (A → (∀ ev ∈ events, ev.moment.Keeps D → ev.ImportsCode env D) → c.Stores D →
      (x c).2.Stores D ∧ D.Ends (Traced own events) Q (x c).1 ∧
        ∀ ev ∈ events, ev.moment.Keeps D)

/-- Any result. -/
def anyResult : α → Prop := fun _ => True

namespace Obeys

variable {env : Environment} {D : Discipline} {own own' : Nat → Prop} {A A' : Prop}
  {Q Q' : α → Prop} {P : β → Prop} {x : Run α} {y : Scribe → Run α}

theorem mono (hx : Obeys env D own A Q x y) (before : A' → A) (after : A' → ∀ a, Q a → Q' a) :
    Obeys env D own A' Q' x y := by
  intro c
  obtain ⟨events, history, kept⟩ := hx c
  refine ⟨events, history, fun hA imports stores => ?_⟩
  obtain ⟨stored, ends, keeps⟩ := kept (before hA) imports stores
  exact ⟨stored, ends.mono (fun _ _ h => h) (after hA), keeps⟩

theorem given {B : Prop} (hx : Obeys env D own A Q x y) (before : B → A) :
    Obeys env D own B Q x y :=
  hx.mono before fun _ _ h => h

/-- A run without events. -/
theorem silent (h : ∀ c, A → c.Stores D → (x c).2.Stores D ∧ D.Ends (fun _ => own) Q (x c).1)
    (same : ∀ c note log, y note (c.withLog log) = ((x c).1, (x c).2.withLog log)) :
    Obeys env D own A Q x y := by
  refine fun c => ⟨[], same c, fun hA _ stores => ?_⟩
  obtain ⟨stored, ends⟩ := h c hA stores
  exact ⟨stored, ends.mono (fun _ _ => Or.inl) fun _ h => h, fun _ hev => nomatch hev⟩

/-- A step that has nothing to do with stored code. -/
theorem step (keeps : ∀ c, (x c).2.functions = c.functions ∧ (x c).2.classes = c.classes)
    (ends : ∀ c, A → D.Ends (fun _ => own) Q (x c).1)
    (same : ∀ c note log, y note (c.withLog log) = ((x c).1, (x c).2.withLog log)) :
    Obeys env D own A Q x y :=
  silent (fun c hA stores => ⟨stores.of_same (keeps c).1 (keeps c).2, ends c hA⟩) same

theorem pure {a : α} (h : A → Q a) : Obeys env D own A Q (Pure.pure a) fun _ => Pure.pure a :=
  step (fun _ => ⟨rfl, rfl⟩) (fun _ => h) fun _ _ _ => rfl

theorem stop {stop : Stop} (h : A → D.Allows (fun _ => own) stop) :
    Obeys env D own A Q (Run.stop stop) fun _ => Run.stop stop :=
  step (fun _ => ⟨rfl, rfl⟩) (fun _ => h) fun _ _ _ => rfl

/-- A fault at a line of the code. -/
theorem faultAt {cause : Cause} {line : Nat} (hcause : A → D.cause cause)
    (hline : own line) :
    Obeys env D own A Q (Run.faultAt cause line) fun _ => Run.faultAt cause line := by
  apply stop
  intro hA
  refine ⟨hcause hA, ?_⟩
  rintro n ⟨⟩
  exact hline

/-- What comes second may rely on what the first has found. -/
theorem bind {f : α → Run β} {g : Scribe → α → Run β} (hx : Obeys env D own A Q x y)
    (hf : ∀ a, Obeys env D own (A ∧ Q a) P (f a) fun note => g note a) :
    Obeys env D own A P (x >>= f) fun note => y note >>= g note := by
  intro c
  obtain ⟨events, history, kept⟩ := hx c
  rcases hr : x c with ⟨r, c'⟩
  rw [hr] at kept
  cases r with
  | error stop =>
    refine ⟨events, history.bind_error hr, ?_⟩
    rw [bind_apply, hr]
    exact kept
  | ok a =>
    obtain ⟨more, history', kept'⟩ := hf a c'
    refine ⟨events ++ more, history.bind_ok hr history', fun hA imports stores => ?_⟩
    obtain ⟨imports₁, imports₂⟩ := List.forall_mem_append.mp imports
    obtain ⟨stores', hQ, keeps⟩ := kept hA imports₁ stores
    obtain ⟨stored, ends, keeps'⟩ := kept' ⟨hA, hQ⟩ imports₂ stores'
    rw [bind_apply, hr]
    refine ⟨stored, ends.mono (fun _ _ h => ?_) fun _ h => h,
      List.forall_mem_append.mpr ⟨keeps, keeps'⟩⟩
    exact h.mono fun _ => List.mem_append_right events

/-- The context is read; what follows must not look at the log. -/
theorem get {f : Context → Run α} {g : Scribe → Context → Run α}
    (hg : ∀ note c log, g note (Context.withLog c log) = g note c)
    (hf : ∀ c, Obeys env D own (A ∧ c.Stores D) Q (f c) fun note => g note c) :
    Obeys env D own A Q (MonadState.get >>= f) fun note => MonadState.get >>= g note := by
  intro c
  obtain ⟨events, history, kept⟩ := hf c c
  exact ⟨events, history.get hg, fun hA imports stores => kept ⟨hA, stores⟩ imports stores⟩

/-- Only the way of ending is changed. -/
theorem onResult (ρ : Frame → Except Stop α → Except Stop β)
    (hρ : ∀ f, ∀ line : Cause → Nat → Prop, (∀ cause n, own n → line cause n) → A →
      ∀ r, D.Ends line Q r → D.Ends line P (ρ f r)) (hx : Obeys env D own A Q x y) :
    Obeys env D own A P (fun c => (ρ (x c).2.frame (x c).1, (x c).2))
      fun note c => (ρ (y note c).2.frame (y note c).1, (y note c).2) := by
  intro c
  obtain ⟨events, history, kept⟩ := hx c
  refine ⟨events, history.onResult ρ, fun hA imports stores => ?_⟩
  obtain ⟨stored, ends, keeps⟩ := kept hA imports stores
  exact ⟨stored, hρ _ _ (fun _ _ => Or.inl) hA _ ends, keeps⟩

theorem mapStop {g : Stop → Stop}
    (hg : ∀ line : Cause → Nat → Prop, (∀ cause n, own n → line cause n) →
      ∀ stop, D.Allows line stop → D.Allows line (g stop)) (hx : Obeys env D own A Q x y) :
    Obeys env D own A Q (x.mapStop g) fun note => (y note).mapStop g := by
  simp only [mapStop_eq]
  refine hx.onResult (fun _ => Except.mapError g) fun _ line sub _ r hr => ?_
  cases r with
  | ok a => exact hr
  | error stop => exact hg line sub stop hr

theorem atLine {line : Nat} (hline : own line) (hx : Obeys env D own A Q x y) :
    Obeys env D own A Q (x.atLine line) fun note => (y note).atLine line :=
  hx.mapStop fun _ sub _ h => Discipline.allows_withLine h fun cause => sub cause line hline

theorem tracing (hx : Obeys env D own A Q x y) :
    Obeys env D own A Q x.tracing fun note => (y note).tracing := by
  simp only [tracing_eq]
  refine hx.onResult (fun f => Except.mapError (Stop.withTrace f.calls)) fun _ _ _ _ r hr => ?_
  cases r with
  | ok a => exact hr
  | error stop => exact Discipline.allows_withTrace hr

/-- A result, or a caught value. -/
def Caught (D : Discipline) (Q : α → Prop) : Except (Value × List String) α → Prop
  | .ok a => Q a
  | .error _ => D.raises

theorem attempt (hx : Obeys env D own A Q x y) :
    Obeys env D own A (Caught D Q) x.attempt fun note => (y note).attempt := by
  simp only [attempt_eq]
  refine hx.onResult (fun _ => caught) fun _ _ _ _ r hr => ?_
  rcases r with (_ | _ | _ | _ | _ | _) | _ <;> exact hr

theorem resume {r : Except (Value × List String) α} (h : A → Caught D Q r) :
    Obeys env D own A Q (Run.resume r) fun _ => Run.resume r := by
  cases r with
  | ok a => exact pure h
  | error e => exact stop h

theorem inFrame (enter leave : Frame → Frame) (hx : Obeys env D own A Q x y) :
    Obeys env D own A Q (Run.inFrame enter leave x)
      fun note => Run.inFrame enter leave (y note) := by
  intro c
  obtain ⟨events, history, kept⟩ := hx { c with frame := enter c.frame }
  refine ⟨events, history.inFrame leave, fun hA imports stores => ?_⟩
  obtain ⟨stored, ended⟩ := kept hA imports (stores.of_same rfl rfl)
  exact ⟨stored.of_same rfl rfl, ended⟩

/-- The moment before a run is assumed to import disciplined code too. The lines that were its own
are blamed by the moment after it. -/
theorem noting {before : Moment} {after : Except Stop α → Moment}
    (blamed : ∀ f n, f.line = some n → own n → (after (.error (.fault f))).Blames f.cause n)
    (keeps : A → before.Keeps D ∧ ∀ r, (after r).Keeps D)
    (hx : ∀ c : Context, Obeys env D own (A ∧ (c.event before).ImportsCode env D) Q x y) :
    Obeys env D own' A Q x fun note => Run.noting note before after (y note) := by
  intro c
  obtain ⟨events, history, kept⟩ := hx c c
  refine ⟨_, history.noting before after, fun hA imports stores => ?_⟩
  obtain ⟨first, rest⟩ := List.forall_mem_cons.mp imports
  obtain ⟨keeps₁, keeps₂⟩ := keeps hA
  obtain ⟨stored, ends, inner⟩ :=
    kept ⟨hA, first keeps₁⟩ (List.forall_mem_append.mp rest).1 stores
  refine ⟨stored, ?_, ?_⟩
  · cases hr : (x c).1 with
    | ok a => rwa [hr] at ends
    | error stop =>
      rw [hr] at ends
      cases stop with
      | fault f =>
        refine ⟨ends.1, fun n hn => Or.inr ?_⟩
        rcases ends.2 n hn with hown | ⟨ev, hev, blames⟩
        · exact ⟨(x c).2.event (after (.error (.fault f))), by simp, blamed f n hn hown⟩
        · exact ⟨ev, by simp [hev], blames⟩
      | _ => exact ends
  · refine List.forall_mem_cons.mpr ⟨keeps₁, List.forall_mem_append.mpr ⟨inner, ?_⟩⟩
    exact List.forall_mem_singleton.mpr (keeps₂ _)

theorem refuseIf (condition : Bool) {cause : Cause} (hcause : cause.isLoopControl = false)
    {line : Nat} (hline : own line) :
    Obeys env D own A anyResult (Run.refuseIf condition cause line)
      fun _ => Run.refuseIf condition cause line := by
  cases condition with
  | true => exact faultAt (fun _ => D.ordinary hcause) hline
  | false => exact pure fun _ => trivial

theorem ofExcept {r : Except Cause α} (h : Ordinary r) :
    Obeys env D own A anyResult (Run.ofExcept r) fun _ => Run.ofExcept r := by
  cases r with
  | ok a => exact pure fun _ => trivial
  | error cause => exact stop fun _ => ⟨D.ordinary (h cause rfl), by rintro n ⟨⟩⟩

theorem ofExceptAt {r : Except Cause α} (h : Ordinary r) {line : Nat} (hline : own line) :
    Obeys env D own A (fun a => r = .ok a) (Run.ofExceptAt line r)
      fun _ => Run.ofExceptAt line r := by
  cases r with
  | ok a => exact pure fun _ => rfl
  | error cause => exact faultAt (fun _ => D.ordinary (h cause rfl)) hline

theorem debug (line : Unit → String) :
    Obeys env D own A anyResult (Run.debug env line) fun _ => Run.debug env.quiet line := by
  refine step (fun c => ?_) (fun c _ => ?_) fun c note log => ?_
  · cases hd : env.debug <;> simp only [Run.debug, hd] <;> exact ⟨rfl, rfl⟩
  · cases hd : env.debug <;> simp only [Run.debug, hd] <;> trivial
  · cases hd : env.debug <;> simp only [Run.debug, hd] <;> rfl

theorem forM {γ : Type} {f : γ → Run PUnit} {g : Scribe → γ → Run PUnit}
    (hf : ∀ a, Obeys env D own A anyResult (f a) fun note => g note a) (l : List γ) :
    Obeys env D own A anyResult (l.forM f) fun note => l.forM (g note) := by
  induction l with
  | nil => exact pure fun _ => trivial
  | cons a l ih => exact (hf a).bind fun _ => ih.given And.left

theorem write (text : String) :
    Obeys env D own A anyResult (Run.write text) fun _ => Run.write text :=
  step (fun _ => ⟨rfl, rfl⟩) (fun _ _ => trivial) fun _ _ _ => rfl

theorem readLine : Obeys env D own A anyResult Run.readLine fun _ => Run.readLine := by
  refine step (fun c => ?_) (fun c _ => ?_) fun c note log => ?_
  · cases hl : Text.nextLine? c.input <;>
      simp only [Run.readLine, bind_apply, get_apply, set_apply, pure_apply, hl, and_self]
  · cases hl : Text.nextLine? c.input <;>
      simp only [Run.readLine, bind_apply, get_apply, set_apply, pure_apply, hl]
    all_goals trivial
  · have hinput : (c.withLog log).input = c.input := rfl
    cases hl : Text.nextLine? c.input <;>
      simp only [Run.readLine, bind_apply, get_apply, set_apply, pure_apply, hl, hinput]
    all_goals rfl

theorem freshId : Obeys env D own A anyResult Run.freshId fun _ => Run.freshId :=
  step (fun _ => ⟨rfl, rfl⟩) (fun _ _ => trivial) fun _ _ _ => rfl

theorem allocate (i : Nat) (name : String) :
    Obeys env D own A anyResult (Run.allocate i name) fun _ => Run.allocate i name :=
  step (fun _ => ⟨rfl, rfl⟩) (fun _ _ => trivial) fun _ _ _ => rfl

theorem writeField (o : Instance) (name : String) (v : Value) :
    Obeys env D own A anyResult (Run.writeField o name v) fun _ => Run.writeField o name v :=
  step (fun _ => ⟨rfl, rfl⟩) (fun _ _ => trivial) fun _ _ _ => rfl

theorem readField (o : Instance) (name : String) :
    Obeys env D own A anyResult (Run.readField o name) fun _ => Run.readField o name :=
  step (fun _ => ⟨rfl, rfl⟩) (fun _ _ => trivial) fun _ _ _ => rfl

theorem assign (name : String) (v : Value) :
    Obeys env D own A anyResult (Run.assign env name v) fun _ => Run.assign env.quiet name v := by
  refine get (fun _ _ _ => rfl) fun c => ?_
  cases c.frame.scope with
  | none =>
    exact (debug _).bind fun _ =>
      step (fun _ => ⟨rfl, rfl⟩) (fun _ _ => trivial) fun _ _ _ => rfl
  | some scope =>
    exact (debug _).bind fun _ =>
      step (fun _ => ⟨rfl, rfl⟩) (fun _ _ => trivial) fun _ _ _ => rfl

theorem lookup (name : String) {line : Nat} (hline : own line) :
    Obeys env D own A anyResult (Run.lookup name line) fun _ => Run.lookup name line := by
  refine get (fun _ _ _ => rfl) fun c => ?_
  split
  · exact pure fun _ => trivial
  · exact faultAt (fun _ => D.ordinary rfl) hline

/-- What a name means on a class is a disciplined member, if it is one. -/
theorem resolve (i : Nat) (name : String) :
    Obeys env D own A (fun r => ∀ owner m, r = .found owner m → D.member m) (Run.resolve i name)
      fun _ => Run.resolve i name := by
  refine silent (fun c _ stores => ?_) fun c note log => ?_
  · cases hr : c.classes.resolve? i name with
    | none =>
      simp only [Run.resolve, bind_apply, get_apply, hr, stop_apply]
      exact ⟨stores, trivial⟩
    | some p =>
      simp only [Run.resolve, bind_apply, get_apply, set_apply, pure_apply, hr]
      obtain ⟨found, held⟩ := stores.classes.resolve? hr
      exact ⟨⟨stores.functions, held⟩, found⟩
  · have hclasses : (c.withLog log).classes = c.classes := rfl
    cases hr : c.classes.resolve? i name <;>
      simp only [Run.resolve, bind_apply, get_apply, set_apply, pure_apply, stop_apply, hr,
        hclasses]
    rfl

theorem chain (i : Nat) :
    Obeys env D own A anyResult (Run.chain i) fun _ => Run.chain i := by
  refine get (fun _ _ _ => rfl) fun c => ?_
  split
  · exact stop fun _ => trivial
  · exact pure fun _ => trivial

theorem classAt (i : Nat) :
    Obeys env D own A (fun d => ∀ m ∈ d.members.values, D.member m) (Run.classAt i)
      fun _ => Run.classAt i := by
  refine get (fun _ _ _ => rfl) fun c => ?_
  cases hd : c.classes.classes[i]? with
  | none => exact stop fun _ => trivial
  | some d => exact pure fun h _ hm => h.2.classes.member hd hm

end Obeys

end Run

end ClassScript
