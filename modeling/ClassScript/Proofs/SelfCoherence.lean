import ClassScript.Proofs.SessionSafety

/-!
# `this`, the running object and the running class

The parser keeps `this` out of every place that binds a name, and five operations set the frame: the
calls of functions, of methods and through `super`, the initialization of an object, and the import
of a module. Together they keep receiver, owner and `this` in step at every event of every run. So
`this` is the running object or undefined, and a call through `super` runs code of a strict
ancestor.
-/

namespace ClassScript

/-- What `this` denotes in a context. -/
def Context.this (c : Context) (line : Nat) : Except Stop Value × Context :=
  match c.frame.self with
  | some o => (.ok (.object o), c)
  | none => (.error (.fault (.onLine (.undefinedVariable "this") line)), c)

namespace Context.Fits

variable {c : Context} {w : World}

theorem lookup_this (hc : c.Fits w) (line : Nat) : Run.lookup "this" line c = c.this line := by
  have coherent := hc.frame.coherent
  rw [Run.lookup, Run.bind_apply, Run.get_apply, Context.this]
  dsimp only
  cases hself : c.frame.self with
  | some o =>
    obtain ⟨scope, hscope, hthis⟩ := coherent.inside o hself
    rw [hscope, Option.bind_some, hthis]
    rfl
  | none =>
    have hlocal : c.frame.scope.bind (·.get? "this") = none := by
      cases hscope : c.frame.scope with
      | none => rfl
      | some scope => exact coherent.outside hself scope hscope
    rw [hlocal, hc.noGlobalThis]
    rfl

/-- A call through `super` is refused, or it is a call of a method that a strict ancestor of the
owner of the running code declares, on the same object. -/
theorem callSuper_cases (hc : c.Fits w) (env : Environment) (k : Evaluators) (name : String)
    (args : List Expr) (line : Nat) :
    (∃ cause, callSuper env k name args line c = (.error (.fault (.onLine cause line)), c)) ∨
    ∃ o owner ancestor f, c.frame.self = some o ∧ c.frame.owner = some owner ∧
      c.classes.StrictAncestor ancestor owner ∧
      callSuper env k name args line c = (do
        let values ← k.evalAll args
        invoke env k ("super." ++ name) f values (some ⟨o, ancestor⟩) line) c := by
  cases hself : c.frame.self with
  | none =>
    left
    refine ⟨.superOutsideMethod, ?_⟩
    simp only [callSuper, Run.bind_apply, Run.get_apply, hself]
    rfl
  | some o =>
    cases howner : c.frame.owner with
    | none =>
      have hnone := hc.frame.coherent.paired.mpr howner
      rw [hself] at hnone
      cases hnone
    | some owner =>
      have hr := hc.receiver hself howner
      obtain ⟨chain, hchain, hmem⟩ := hr.2
      obtain ⟨d, hd⟩ := ClassTable.exists_class (w.wellFormed.mem_chain?_lt hchain hmem)
      have classAt : Run.classAt owner c = (.ok d, c) := by
        simp only [Run.classAt, Run.bind_apply, Run.get_apply, hc.classes, hd, Run.pure_apply]
      cases hb : d.base with
      | none =>
        left
        refine ⟨.noBaseClass d.name, ?_⟩
        simp only [callSuper, Run.bind_apply, Run.get_apply, hself, howner, classAt, hb]
        rfl
      | some base =>
        obtain ⟨found, hfound, hmethod⟩ := superMethod hr hd hb name
        have hlt := w.wellFormed.base_lt owner base ⟨d, hd, hb⟩
        obtain ⟨b, hbase⟩ := ClassTable.exists_class (Nat.lt_trans hlt (ClassTable.lt_size hd))
        have baseAt : Run.classAt base c = (.ok b, c) := by
          simp only [Run.classAt, Run.bind_apply, Run.get_apply, hc.classes, hbase, Run.pure_apply]
        rcases found with _ | ⟨ancestor, (⟨x, a, e, l⟩ | ⟨x, a, ps, body, v, ov, l⟩)⟩
        case found.method =>
          right
          obtain ⟨_, hancestor, _⟩ := hmethod _ _ rfl
          refine ⟨o, owner, ancestor, ⟨ps, body⟩, rfl, rfl, hc.classes ▸ hancestor, ?_⟩
          simp only [callSuper, Run.bind_apply, Run.get_apply, hself, howner, classAt, hb,
            hc.classes, hfound]
        all_goals
          left
          refine ⟨.undefinedMember b.name name, ?_⟩
          simp only [callSuper, Run.bind_apply, Run.get_apply, hself, howner, classAt, hb,
            hc.classes, hfound, baseAt]
          rfl

end Context.Fits

/-- At every event of every run, receiver and owner are there together or not at all. When they are,
the owner lies on the chain of the receiver's class and the active scope binds `this` to the
receiver; when they are not, no scope binds `this`, and no global does at any time. So the variable
`this` is the running object or undefined, and a call through `super` either fails before it starts
or runs, on the same object, a method of a strict ancestor of the owner, whose index is smaller. -/
theorem self_coherent {s : Session} {past : List Event} (lived : s.Lived past) (debug : Bool)
    (source : String) :
    ∃ events, s.Passes debug source events ∧ ∀ ev ∈ past ++ events,
      ev.context.frame.Coherent ev.context.classes ∧
      ev.context.globals.get? "this" = none ∧
      (∀ line, Run.lookup "this" line ev.context = ev.context.this line) ∧
      ∀ env k name args line,
        (∃ cause, callSuper env k name args line ev.context =
          (.error (.fault (.onLine cause line)), ev.context)) ∨
        ∃ o owner ancestor f, ev.context.frame.self = some o ∧
          ev.context.frame.owner = some owner ∧
          ev.context.classes.StrictAncestor ancestor owner ∧ ancestor < owner ∧
          callSuper env k name args line ev.context = (do
            let values ← k.evalAll args
            invoke env k ("super." ++ name) f values (some ⟨o, ancestor⟩) line) ev.context := by
  obtain ⟨events, w, passes, hpass⟩ := lived.passage debug source
  refine ⟨events, passes, fun ev hev => ?_⟩
  obtain ⟨u, _, hsound⟩ := hpass.of_mem hev
  have hfits := hsound.fits
  refine ⟨hfits.classes ▸ hfits.frame.coherent, hfits.noGlobalThis, hfits.lookup_this,
    fun env k name args line => ?_⟩
  rcases hfits.callSuper_cases env k name args line with
    hfault | ⟨o, owner, ancestor, f, hself, howner, hancestor, hcall⟩
  · exact Or.inl hfault
  · refine Or.inr ⟨o, owner, ancestor, f, hself, howner, hancestor, ?_, hcall⟩
    exact ClassTable.WellFormed.strictAncestor_lt (hfits.classes ▸ u.wellFormed) hancestor

private def closed : Session := .start (.ofList "" []) none true ""

private def superSource : String :=
  "class A { function m() { return null; } }
  class B extends A { function m() { return super.m(); } }
  b = new B; b.m();"

/-- A method of a base class runs on an object of the derived one. -/
theorem self_coherent_super :
    closed.Lived [] ∧
    ∃ events, closed.Passes false superSource events ∧ ∀ ev ∈ [] ++ events,
      ev.context.frame.Coherent ev.context.classes ∧
      ∀ line, Run.lookup "this" line ev.context = ev.context.this line := by
  have start : closed.Lived [] := .start _ _ _ _
  obtain ⟨events, passes, coherent⟩ := self_coherent start false superSource
  refine ⟨start, events, passes, fun ev hev => ?_⟩
  obtain ⟨frame, _, this, _⟩ := coherent ev hev
  exact ⟨frame, this⟩

end ClassScript
