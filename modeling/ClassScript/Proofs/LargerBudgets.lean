import ClassScript.Proofs.History
import ClassScript.Proofs.RelatedRuns

/-!
# A larger budget changes no result

The budget bounds how deep evaluation goes and how often a loop is repeated. A run that does not use
it up does the same with any larger one. So whether a run ends, and how, does not depend on a
budget: there is at most one way in which it ends with any that is large enough.
-/

namespace ClassScript

namespace Run

variable {α β : Type}

/-- Where `x` does not use up its budget, `y` does what `x` does. -/
def Persists (x y : Run α) : Prop :=
  ∀ c, (x c).1 ≠ .error .exhausted → y c = x c

namespace Persists

variable {x y : Run α}

theorem refl (x : Run α) : Persists x x :=
  fun _ _ => rfl

theorem trans {z : Run α} (hx : Persists x y) (hy : Persists y z) : Persists x z := by
  intro c enough
  have first := hx c enough
  rw [← first] at enough
  exact (hy c enough).trans first

theorem exhausted : Persists (Run.stop .exhausted : Run α) y :=
  fun _ enough => absurd rfl enough

theorem bind {f g : α → Run β} (hx : Persists x y) (hf : ∀ a, Persists (f a) (g a)) :
    Persists (x >>= f) (y >>= g) := by
  intro c enough
  have first := hx c
  rw [bind_apply] at enough ⊢
  rw [bind_apply]
  rcases hr : x c with ⟨r, c'⟩
  rw [hr] at enough first
  cases r with
  | error s =>
    have left : (.error s : Except Stop α) ≠ .error .exhausted := by
      rintro ⟨⟩
      exact enough rfl
    rw [first left]
  | ok a =>
    rw [first nofun]
    exact hf a c' enough

theorem get {f g : Context → Run α} (h : ∀ c, Persists (f c) (g c)) :
    Persists (MonadState.get >>= f) (MonadState.get >>= g) :=
  (refl _).bind h

/-- Only the way of ending is changed, and running out of budget stays what it is. -/
theorem onResult (ρ : Frame → Except Stop α → Except Stop β)
    (hρ : ∀ f, ρ f (.error .exhausted) = .error .exhausted) (hx : Persists x y) :
    Persists (fun c => (ρ (x c).2.frame (x c).1, (x c).2))
      fun c => (ρ (y c).2.frame (y c).1, (y c).2) := by
  intro c enough
  have left : (x c).1 ≠ .error .exhausted := by
    intro h
    apply enough
    dsimp only
    rw [h, hρ]
  dsimp only
  rw [hx c left]

theorem mapStop {g : Stop → Stop} (hg : g .exhausted = .exhausted) (hx : Persists x y) :
    Persists (x.mapStop g) (y.mapStop g) := by
  simp only [mapStop_eq]
  exact hx.onResult (fun _ => Except.mapError g) fun _ => congrArg Except.error hg

theorem tracing (hx : Persists x y) : Persists x.tracing y.tracing := by
  simp only [tracing_eq]
  exact hx.onResult (fun f => Except.mapError (Stop.withTrace f.calls)) fun _ => rfl

theorem attempt (hx : Persists x y) : Persists x.attempt y.attempt := by
  simp only [attempt_eq]
  exact hx.onResult (fun _ => caught) fun _ => rfl

theorem inFrame (enter leave : Frame → Frame) (hx : Persists x y) :
    Persists (Run.inFrame enter leave x) (Run.inFrame enter leave y) := by
  intro c enough
  rw [inFrame_apply, inFrame_apply, hx { c with frame := enter c.frame } enough]

/-- The loop that may go on longer repeats its rounds with more budget. -/
theorem loop {condition condition' : Run Bool} {body body' : Run Outcome} {after after' : Run Unit}
    (hc : Persists condition condition') (hb : Persists body body') (ha : Persists after after')
    {bound bound' : Nat} (h : bound ≤ bound') :
    Persists (loop condition body after bound) (loop condition' body' after' bound') := by
  induction bound generalizing bound' with
  | zero => exact exhausted
  | succ bound ih =>
    obtain ⟨more, rfl⟩ : ∃ more, bound' = more + 1 := ⟨bound' - 1, by omega⟩
    have rest := ih (Nat.le_of_succ_le_succ h)
    refine hc.bind fun b => ?_
    cases b with
    | false => exact refl _
    | true =>
      refine hb.bind fun outcome => ?_
      cases outcome with
      | breaking => exact refl _
      | returning v => exact refl _
      | normal => exact ha.bind fun _ => rest
      | continuing => exact ha.bind fun _ => rest

end Persists

end Run

/-- The relation of a run to the same with more budget. -/
def persisting : RunRelation Unit :=
  fun _ _ x y => x.Persists (y ())

open Run in
theorem persisting_closed (env : Environment) : persisting.Closed env env.debug where
  pure _ := Persists.refl _
  stop _ := Persists.refl _
  bind hx hf := Persists.bind hx hf
  get _ hf := Persists.get hf
  step _ _ _ _ := Persists.refl _
  debug _ := Persists.refl _
  atLine _ hx := Persists.mapStop rfl hx
  assign _ _ := Persists.refl _
  own _ := Persists.refl _
  enter _ hx := Persists.inFrame _ _ hx
  fail _ := Persists.refl _
  attempt hx := Persists.attempt hx
  call _ _ _ hx := Persists.inFrame _ _ (Persists.tracing hx)

open Run in
theorem persists_importModule {k k' : Evaluators} (hk : k.Related persisting fun _ => k')
    (env : Environment) (module : String) (line : Nat) :
    Persists (importModule env k module line) (importModule env k' module line) := by
  refine (Persists.refl _).bind fun m => Persists.get fun c => ?_
  refine (Persists.refl _).bind fun _ => (Persists.refl _).bind fun _ => ?_
  refine (Persists.refl _).bind fun program => ?_
  have inner := (persisting_closed env).execAll hk program.statements
  exact (Persists.inFrame _ _ inner).bind fun outcome => Persists.refl _

/-- By induction on the smaller budget. -/
theorem evaluators_persist (env : Environment) {n m : Nat} (h : n ≤ m) :
    (evaluators env n).Related persisting fun _ => evaluators env m := by
  have closed := persisting_closed env
  induction n generalizing m with
  | zero =>
    exact ⟨fun _ _ => Run.Persists.exhausted, fun _ => Run.Persists.exhausted,
      fun hc hb ha => Run.Persists.loop hc hb ha h⟩
  | succ n ih =>
    obtain ⟨m, rfl⟩ : ∃ m', m = m' + 1 := ⟨m - 1, by omega⟩
    have less := ih (m := m) (by omega)
    refine ⟨fun _ e => closed.evalStep less e, fun s => closed.atLine s.line ?_,
      fun hc hb ha => Run.Persists.loop hc hb ha h⟩
    exact closed.execStep less fun module line _ => persists_importModule less env module line

theorem persists_exec (env : Environment) {n m : Nat} (h : n ≤ m) (s : Stmt) :
    Run.Persists (exec env n s) (exec env m s) :=
  (evaluators_persist env h).exec s

theorem persists_execAll (env : Environment) {n m : Nat} (h : n ≤ m) (ss : List Stmt) :
    Run.Persists ((evaluators env n).execAll ss) ((evaluators env m).execAll ss) :=
  (persisting_closed env).execAll (evaluators_persist env h) ss

end ClassScript
