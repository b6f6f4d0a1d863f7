import ClassScript.Proofs.RelatedRuns

/-!
# What a run sees of the import stack

The modules being imported are looked at in one place: an import is refused when its module is among
them. So a run that ends without a fault under some stack of modules does the same under every
stack that has no other files on it, whatever the debug log holds. The statement is about whole
runs, since an import may stand in any function that is called, at any depth.
-/

namespace ClassScript

/-- No fault, which leaves a result, a thrown value and the ways of giving up. -/
def Faultless {α : Type} (r : Except Stop α) : Prop :=
  ∀ f, r ≠ .error (.fault f)

instance {α : Type} (r : Except Stop α) : Decidable (Faultless r) :=
  match r with
  | .error (.fault f) => isFalse fun h => h f rfl
  | .ok _ | .error (.raised ..) | .error (.malformed _) | .error (.overflow _) | .error .badIndex
  | .error .exhausted => isTrue nofun

/-- The files of these modules are all on the stack. -/
def Covered (imports stack : List ModuleRef) : Prop :=
  imports.map ModuleRef.path ⊆ stack.map ModuleRef.path

theorem Covered.cons {imports stack : List ModuleRef} (h : Covered imports stack) (m : ModuleRef) :
    Covered (m :: imports) (m :: stack) :=
  List.cons_subset_cons m.path h

/-- What is not on the stack is not covered by it. -/
theorem Covered.any_eq_false {imports stack : List ModuleRef} {path : List String}
    (h : Covered imports stack) (fresh : (stack.any fun m => m.path == path) = false) :
    (imports.any fun m => m.path == path) = false := by
  have absent : path ∉ stack.map ModuleRef.path := by
    intro hmem
    obtain ⟨m, hm, rfl⟩ := List.mem_map.mp hmem
    have hne := List.any_eq_false.mp fresh m hm
    exact hne (beq_self_eq_true m.path)
  refine List.any_eq_false.mpr fun m hm heq => absent (h ?_)
  exact List.mem_map.mpr ⟨m, hm, eq_of_beq heq⟩

namespace Run

variable {α β : Type}

/-- Whenever `x` ends without a fault, `y` does the same under every stack covered by that of `x`,
and the stack is the same afterwards. -/
def Follows (x y : Run α) : Prop :=
  ∀ c imports log, Covered imports c.frame.imports → Faultless (x c).1 →
    (∃ log', y (c.restack imports log) = ((x c).1, (x c).2.restack imports log')) ∧
    (x c).2.frame.imports = c.frame.imports

namespace Follows

variable {x y : Run α}

/-- A computation that neither looks at the import stack nor changes it. -/
theorem blind (h : ∀ c imports log, ∃ log',
      x (c.restack imports log) = ((x c).1, (x c).2.restack imports log'))
    (keeps : ∀ c, (x c).2.frame.imports = c.frame.imports) : Follows x x :=
  fun c imports log _ _ => ⟨h c imports log, keeps c⟩

theorem pure (a : α) : Follows (Pure.pure a) (Pure.pure a) :=
  blind (fun _ _ log => ⟨log, rfl⟩) fun _ => rfl

theorem stop (s : Stop) : Follows (Run.stop s : Run α) (Run.stop s) :=
  blind (fun _ _ log => ⟨log, rfl⟩) fun _ => rfl

/-- After a fault there is nothing to follow. -/
theorem afterFault (cause : Cause) (line : Nat) (f : α → Run β) (y : Run β) :
    Follows (Run.faultAt cause line >>= f) y :=
  fun _ _ _ _ calm => absurd rfl (calm _)

theorem bind {f g : α → Run β} (hx : Follows x y) (hf : ∀ a, Follows (f a) (g a)) :
    Follows (x >>= f) (y >>= g) := by
  intro c imports log covered calm
  rw [bind_apply] at calm ⊢
  rw [bind_apply]
  rcases hr : x c with ⟨r, c'⟩
  have first := hx c imports log covered
  rw [hr] at calm first
  cases r with
  | error s =>
    have calm' : Faultless (.error s : Except Stop α) := by
      rintro f ⟨⟩
      exact calm f rfl
    obtain ⟨⟨log', hy⟩, himports⟩ := first calm'
    rw [hy]
    exact ⟨⟨log', rfl⟩, himports⟩
  | ok a =>
    obtain ⟨⟨log', hy⟩, himports⟩ := first fun _ => nofun
    dsimp only at himports
    rw [hy]
    have covered' : Covered imports c'.frame.imports := himports ▸ covered
    obtain ⟨again, himports'⟩ := hf a c' imports log' covered' calm
    exact ⟨again, himports'.trans himports⟩

/-- The context is read, and with it the import stack. -/
theorem get {f g : Context → Run α}
    (h : ∀ c imports log, Covered imports c.frame.imports →
      Follows (f c) (g (c.restack imports log))) :
    Follows (MonadState.get >>= f) (MonadState.get >>= g) :=
  fun c imports log covered calm => h c imports log covered c imports log covered calm

/-- The context is read, the import stack and the log left aside. -/
theorem getBlind {f g : Context → Run α}
    (hg : ∀ c imports log, g (Context.restack c imports log) = g c)
    (h : ∀ c, Follows (f c) (g c)) :
    Follows (MonadState.get >>= f) (MonadState.get >>= g) := by
  refine get fun c imports log _ => ?_
  rw [hg c imports log]
  exact h c

/-- Only the way of ending is changed, not by a look at the import stack, and a fault stays a
fault. -/
theorem onResult (ρ : Frame → Except Stop α → Except Stop β)
    (blind : ∀ f imports, ρ (Frame.restack f imports) = ρ f)
    (fault : ∀ f r, Faultless (ρ f r) → Faultless r) (hx : Follows x y) :
    Follows (fun c => (ρ (x c).2.frame (x c).1, (x c).2))
      fun c => (ρ (y c).2.frame (y c).1, (y c).2) := by
  intro c imports log covered calm
  obtain ⟨⟨log', hy⟩, himports⟩ := hx c imports log covered (fault _ _ calm)
  refine ⟨⟨log', ?_⟩, himports⟩
  dsimp only
  rw [hy]
  dsimp only [Context.restack]
  rw [blind]

theorem mapStop {g : Stop → Stop} (fault : ∀ f, ∃ f', g (.fault f) = .fault f')
    (hx : Follows x y) : Follows (x.mapStop g) (y.mapStop g) := by
  simp only [mapStop_eq]
  refine hx.onResult (fun _ => Except.mapError g) (fun _ _ => rfl) ?_
  rintro _ _ calm f rfl
  obtain ⟨f', hf'⟩ := fault f
  exact calm f' (congrArg Except.error hf')

theorem tracing (hx : Follows x y) : Follows x.tracing y.tracing := by
  simp only [tracing_eq]
  refine hx.onResult (fun frame => Except.mapError (Stop.withTrace frame.calls))
    (fun _ _ => rfl) ?_
  rintro frame _ calm f rfl
  exact calm (f.withTrace frame.calls) rfl

theorem attempt (hx : Follows x y) : Follows x.attempt y.attempt := by
  simp only [attempt_eq]
  refine hx.onResult (fun _ => caught) (fun _ _ => rfl) ?_
  rintro _ _ calm f rfl
  exact calm f rfl

/-- Code in a frame of its own, whose import stack is made by `push` from the one outside. The way
out undoes the push, so it leads back to either stack. -/
theorem inFrame {enter leave : Frame → Frame} (push : List ModuleRef → List ModuleRef)
    (covers : ∀ imports stack, Covered imports stack → Covered (push imports) (push stack))
    (entered : ∀ f imports, enter (Frame.restack f imports) = (enter f).restack (push imports))
    (left : ∀ f imports, leave (Frame.restack f (push imports)) = (leave f).restack imports)
    (hx : Follows x y) : Follows (Run.inFrame enter leave x) (Run.inFrame enter leave y) := by
  intro c imports log covered calm
  have inner : (enter c.frame).imports = push c.frame.imports :=
    congrArg Frame.imports (entered c.frame c.frame.imports)
  have covered' : Covered (push imports) (enter c.frame).imports := inner ▸ covers _ _ covered
  have run := hx { c with frame := enter c.frame } (push imports) log covered'
  rw [Run.inFrame] at calm ⊢
  rw [Run.inFrame]
  rcases hr : x { c with frame := enter c.frame } with ⟨r, d⟩
  rw [hr] at calm run
  obtain ⟨⟨log', hy⟩, himports⟩ := run calm
  have step : y { c.restack imports log with frame := enter (c.restack imports log).frame } =
      (r, d.restack (push imports) log') :=
    (congrArg (fun f => y { c.restack imports log with frame := f })
      (entered c.frame imports)).trans hy
  have stacked : d.frame = d.frame.restack (push c.frame.imports) := by
    rw [← inner, ← himports]
    rfl
  have out : (leave d.frame).imports = c.frame.imports := by
    rw [stacked, left]
    rfl
  refine ⟨⟨log', ?_⟩, out⟩
  rw [step]
  dsimp only [Context.restack]
  rw [left]
  rfl

theorem debug (env : Environment) (line : Unit → String) :
    Follows (Run.debug env line) (Run.debug env line) := by
  refine blind (fun c imports log => ?_) fun c => ?_
  · cases hd : env.debug <;> simp only [Run.debug, hd]
    · exact ⟨log, rfl⟩
    · exact ⟨line () :: log, rfl⟩
  · cases hd : env.debug <;> simp only [Run.debug, hd] <;> rfl

theorem update {f : Context → Context}
    (h : ∀ c imports log, f (Context.restack c imports log) = (f c).restack imports log)
    (keeps : ∀ c, (f c).frame.imports = c.frame.imports) :
    Follows (modify f : Run PUnit) (modify f) :=
  blind (fun c imports log => ⟨log, congrArg (Prod.mk _) (h c imports log)⟩) keeps

theorem assign (env : Environment) (name : String) (v : Value) :
    Follows (Run.assign env name v) (Run.assign env name v) := by
  refine getBlind (fun _ _ _ => rfl) fun c => ?_
  cases c.frame.scope with
  | none => exact (debug env _).bind fun _ => update (fun _ _ _ => rfl) fun _ => rfl
  | some scope => exact (debug env _).bind fun _ => update (fun _ _ _ => rfl) fun _ => rfl

end Follows

end Run

end ClassScript
