import ClassScript.Proofs.MemberCalls
import ClassScript.Proofs.ObjectModel

/-!
# Runs that keep the object model

A run is safe from a world when, started in any context that fits it, it ends in a context that fits
a later one, every event of its history is sound in a world in between, and so is what it ends with.
In particular it never follows a class index out of the table. Safety is closed under the ways in
which runs are put together, and the basic operations have it.
-/

namespace ClassScript

/-- A thrown value is sound, and no index led out of the class table. -/
def Stop.Sound (w : World) : Stop → Prop
  | .raised v _ => v.Sound w
  | .badIndex => False
  | .fault _ | .malformed _ | .overflow _ | .exhausted => True

def Outcome.Sound (w : World) (outcome : Outcome) : Prop :=
  ∀ v ∈ outcome.values, v.Sound w

/-- How a run may end in a world, a result having the given property. -/
def Ends {α : Type} (P : World → α → Prop) (w : World) : Except Stop α → Prop
  | .ok a => P w a
  | .error stop => stop.Sound w

/-- What an expression may evaluate to: `new` gives an object with all its fields. -/
def Expr.Answers (e : Expr) (w : World) (v : Value) : Prop :=
  v.Sound w ∧ ∀ className line, e = .new className line → ∃ o, v = .object o ∧ w.Complete o

def Moment.Sound (w : World) : Moment → Prop
  | .began | .evaluating _ | .executing _ => True
  | .evaluated e result => Ends e.Answers w result
  | .executed _ result | .ended result => Ends Outcome.Sound w result

structure Event.Sound (w : World) (ev : Event) : Prop where
  moment : ev.moment.Sound w
  fits : ev.context.Fits w

/-- From one world to a later one through sound events. -/
inductive World.Passage : World → List Event → World → Prop
  | done {w u : World} : w.Grows u → Passage w [] u
  | event {w u v : World} {ev : Event} {events : List Event} :
    w.Grows u → ev.Sound u → Passage u events v → Passage w (ev :: events) v

namespace World.Passage

variable {w u v : World} {events more : List Event}

theorem grows (h : w.Passage events u) : w.Grows u := by
  induction h with
  | done grows => exact grows
  | event first _ _ ih => exact first.trans ih

theorem after (first : w.Grows u) (h : u.Passage events v) : w.Passage events v := by
  cases h with
  | done grows => exact .done (first.trans grows)
  | event grows hev rest => exact .event (first.trans grows) hev rest

theorem append (first : w.Passage events u) (second : u.Passage more v) :
    w.Passage (events ++ more) v := by
  induction first with
  | done grows => exact second.after grows
  | event grows hev _ ih => exact .event grows hev (ih second)

/-- Every event is sound in a world on the way, and all that follow in later worlds. -/
theorem split {before : List Event} {ev : Event} (h : w.Passage (before ++ ev :: more) v) :
    ∃ u, w.Passage before u ∧ ev.Sound u ∧ u.Passage more v := by
  induction before generalizing w with
  | nil =>
    cases h with
    | event grows hev rest => exact ⟨_, .done grows, hev, rest⟩
  | cons first before ih =>
    cases h with
    | event grows hfirst rest =>
      obtain ⟨u, hbefore, hev, hmore⟩ := ih rest
      exact ⟨u, .event grows hfirst hbefore, hev, hmore⟩

theorem of_mem (h : w.Passage events u) {ev : Event} (hev : ev ∈ events) :
    ∃ v, w.Grows v ∧ ev.Sound v := by
  obtain ⟨before, after, rfl⟩ := List.append_of_mem hev
  obtain ⟨v, hbefore, hsound, _⟩ := h.split
  exact ⟨v, hbefore.grows, hsound⟩

end World.Passage

namespace Run

variable {α β : Type}

/-- From every context that fits `w` and runs code of the object `me`, `x` keeps the object model
and ends with a result that has the property `P`; `y` is `x` with notes. -/
def Safe (me : Option Instance) (w : World) (P : World → α → Prop) (x : Run α)
    (y : Scribe → Run α) : Prop :=
  ∀ c : Context, c.Fits w → c.frame.self = me → ∃ u events, w.Passage events u ∧
    (x c).2.Fits u ∧ (x c).2.frame.self = me ∧ Ends P u (x c).1 ∧ x.History y c events

/-- Any result. -/
def anyEnd : World → α → Prop := fun _ _ => True

namespace Safe

variable {me : Option Instance} {w : World} {P : World → α → Prop} {Q : World → β → Prop}
  {x : Run α} {y : Scribe → Run α}

/-- A run without events. -/
theorem silent (h : ∀ c : Context, c.Fits w → c.frame.self = me → ∃ u, w.Grows u ∧
      (x c).2.Fits u ∧ (x c).2.frame.self = me ∧ Ends P u (x c).1)
    (same : ∀ c note log, y note (c.withLog log) = ((x c).1, (x c).2.withLog log)) :
    Safe me w P x y := by
  intro c hc hme
  obtain ⟨u, grows, hfits, hself, hends⟩ := h c hc hme
  exact ⟨u, [], .done grows, hfits, hself, hends, same c⟩

theorem weaken {P' : World → α → Prop} (hx : Safe me w P x y)
    (h : ∀ u a, w.Grows u → P u a → P' u a) : Safe me w P' x y := by
  intro c hc hme
  obtain ⟨u, events, hpass, hfits, hself, hends, history⟩ := hx c hc hme
  refine ⟨u, events, hpass, hfits, hself, ?_, history⟩
  cases hr : (x c).1 with
  | ok a => rw [hr] at hends; exact h u a hpass.grows hends
  | error stop => rw [hr] at hends; exact hends

theorem pure {a : α} (h : P w a) : Safe me w P (Pure.pure a) fun _ => Pure.pure a :=
  silent (fun _ hc hme => ⟨w, .refl w, hc, hme, h⟩) fun _ _ _ => rfl

theorem stop {stop : Stop} (h : stop.Sound w) :
    Safe me w P (Run.stop stop) fun _ => Run.stop stop :=
  silent (fun _ hc hme => ⟨w, .refl w, hc, hme, h⟩) fun _ _ _ => rfl

theorem faultAt (cause : Cause) (line : Nat) :
    Safe me w P (Run.faultAt cause line) fun _ => Run.faultAt cause line :=
  stop trivial

/-- What comes second starts in the world that the first has reached. -/
theorem bind {f : α → Run β} {g : Scribe → α → Run β} (hx : Safe me w P x y)
    (hf : ∀ u, w.Grows u → ∀ a, P u a → Safe me u Q (f a) fun note => g note a) :
    Safe me w Q (x >>= f) fun note => y note >>= g note := by
  intro c hc hme
  obtain ⟨u, events, hpass, hfits, hself, hends, history⟩ := hx c hc hme
  rcases hr : x c with ⟨r, c'⟩
  rw [hr] at hfits hself hends
  cases r with
  | error stop =>
    refine ⟨u, events, hpass, ?_, ?_, ?_, history.bind_error hr⟩
    all_goals
      rw [bind_apply, hr]
      assumption
  | ok a =>
    obtain ⟨v, more, hpass', hfits', hself', hends', history'⟩ :=
      hf u hpass.grows a hends c' hfits hself
    refine ⟨v, events ++ more, hpass.append hpass', ?_, ?_, ?_, history.bind_ok hr history'⟩
    all_goals
      rw [bind_apply, hr]
      assumption

/-- The context is read; what follows must not look at the log. -/
theorem get {f : Context → Run α} {g : Scribe → Context → Run α}
    (hg : ∀ note c log, g note (Context.withLog c log) = g note c)
    (hf : ∀ c, c.Fits w → c.frame.self = me → Safe me w P (f c) fun note => g note c) :
    Safe me w P (MonadState.get >>= f) fun note => MonadState.get >>= g note := by
  intro c hc hme
  obtain ⟨u, events, hpass, hfits, hself, hends, history⟩ := hf c hc hme c hc hme
  exact ⟨u, events, hpass, hfits, hself, hends, history.get hg⟩

/-- Only the way of ending is changed. -/
theorem onResult (ρ : Frame → Except Stop α → Except Stop β)
    (hρ : ∀ f u r, Ends P u r → Ends Q u (ρ f r)) (hx : Safe me w P x y) :
    Safe me w Q (fun c => (ρ (x c).2.frame (x c).1, (x c).2))
      fun note c => (ρ (y note c).2.frame (y note c).1, (y note c).2) := by
  intro c hc hme
  obtain ⟨u, events, hpass, hfits, hself, hends, history⟩ := hx c hc hme
  exact ⟨u, events, hpass, hfits, hself, hρ _ u _ hends, history.onResult ρ⟩

theorem mapStop {g : Stop → Stop} (hg : ∀ u stop, Stop.Sound u stop → (g stop).Sound u)
    (hx : Safe me w P x y) : Safe me w P (x.mapStop g) fun note => (y note).mapStop g := by
  simp only [mapStop_eq]
  refine hx.onResult (fun _ => Except.mapError g) fun _ u r hr => ?_
  cases r with
  | ok a => exact hr
  | error stop => exact hg u stop hr

theorem atLine (line : Nat) (hx : Safe me w P x y) :
    Safe me w P (x.atLine line) fun note => (y note).atLine line :=
  hx.mapStop fun _ stop h => by cases stop <;> exact h

theorem tracing (hx : Safe me w P x y) :
    Safe me w P x.tracing fun note => (y note).tracing := by
  simp only [tracing_eq]
  refine hx.onResult (fun f => Except.mapError (Stop.withTrace f.calls)) fun _ u r hr => ?_
  rcases r with (_ | _ | _ | _ | _ | _) | _ <;> exact hr

/-- A result or a caught value. -/
def Caught (P : World → α → Prop) (w : World) : Except (Value × List String) α → Prop
  | .ok a => P w a
  | .error (v, _) => v.Sound w

theorem attempt (hx : Safe me w P x y) :
    Safe me w (Caught P) x.attempt fun note => (y note).attempt := by
  simp only [attempt_eq]
  refine hx.onResult (fun _ => caught) fun _ u r hr => ?_
  rcases r with (_ | _ | _ | _ | _ | _) | _ <;> exact hr

theorem resume {r : Except (Value × List String) α} (h : Caught P w r) :
    Safe me w P (Run.resume r) fun _ => Run.resume r := by
  cases r with
  | ok a => exact pure h
  | error e => exact stop h

/-- Code in a frame of its own, which has to be sound. -/
theorem inFrame {enter leave : Frame → Frame} {inner : Option Instance}
    (henter : ∀ f, (enter f).Sound w ∧ (enter f).self = inner) (hx : Safe inner w P x y) :
    Safe me w P (Run.inFrame enter leave x) fun note => Run.inFrame enter leave (y note) := by
  intro c hc hme
  obtain ⟨sound, hinner⟩ := henter c.frame
  obtain ⟨u, events, hpass, hfits, hself, hends, history⟩ :=
    hx { c with frame := enter c.frame } (hc.withFrame sound) hinner
  exact ⟨u, events, hpass, hfits.withFrame ((hc.frame.mono hpass.grows).resuming _), hme, hends,
    history.inFrame leave⟩

/-- The events of a run between the moment before it and the moment after it. -/
theorem noting {before : Moment} {after : Except Stop α → Moment} (hbefore : before.Sound w)
    (hafter : ∀ u r, Ends P u r → (after r).Sound u) (hx : Safe me w P x y) :
    Safe me w P x fun note => Run.noting note before after (y note) := by
  intro c hc hme
  obtain ⟨u, events, hpass, hfits, hself, hends, history⟩ := hx c hc hme
  have first : (c.event before).Sound w := ⟨hbefore, hc.recast _ _ _ _ _⟩
  have last : ((x c).2.event (after (x c).1)).Sound u :=
    ⟨hafter u _ hends, hfits.recast _ _ _ _ _⟩
  exact ⟨u, c.event before :: (events ++ [(x c).2.event (after (x c).1)]),
    .event (.refl w) first (hpass.append (.event (.refl u) last (.done (.refl u)))),
    hfits, hself, hends, history.noting before after⟩

theorem refuseIf (condition : Bool) (cause : Cause) (line : Nat) :
    Safe me w anyEnd (Run.refuseIf condition cause line)
      fun _ => Run.refuseIf condition cause line := by
  rw [Run.refuseIf]
  split
  · exact faultAt _ _
  · exact pure trivial

theorem ofExcept {r : Except Cause α} (h : ∀ a, r = .ok a → P w a) :
    Safe me w P (Run.ofExcept r) fun _ => Run.ofExcept r := by
  cases r with
  | ok a => exact pure (h a rfl)
  | error cause => exact stop trivial

theorem ofExceptAt (line : Nat) {r : Except Cause α} (h : ∀ a, r = .ok a → P w a) :
    Safe me w P (Run.ofExceptAt line r) fun _ => Run.ofExceptAt line r := by
  cases r with
  | ok a => exact pure (h a rfl)
  | error cause => exact stop trivial

/-- The debug log does not show in a history. -/
theorem debug (env : Environment) (line : Unit → String) :
    Safe me w anyEnd (Run.debug env line) fun _ => Run.debug env.quiet line := by
  refine silent (fun c hc hme => ⟨w, .refl w, ?_⟩) fun c note log => ?_
  · cases hd : env.debug <;> simp only [Run.debug, hd]
    · exact ⟨hc, hme, trivial⟩
    · exact ⟨hc.recast _ _ _ _ _, hme, trivial⟩
  · cases hd : env.debug <;> simp only [Run.debug, hd] <;> rfl

theorem forM {γ : Type} {f : γ → Run PUnit} {g : Scribe → γ → Run PUnit} {w₀ : World}
    (hf : ∀ u, w₀.Grows u → ∀ a, Safe me u anyEnd (f a) fun note => g note a) (l : List γ)
    (h : w₀.Grows w) : Safe me w anyEnd (l.forM f) fun note => l.forM (g note) := by
  induction l generalizing w with
  | nil => exact pure trivial
  | cons a l ih => exact (hf w h a).bind fun u grows _ _ => ih (h.trans grows)

theorem write (text : String) : Safe me w anyEnd (Run.write text) fun _ => Run.write text :=
  silent (fun _ hc hme => ⟨w, .refl w, hc.recast _ _ _ _ _, hme, trivial⟩) fun _ _ _ => rfl

theorem readLine : Safe me w anyEnd Run.readLine fun _ => Run.readLine := by
  refine silent (fun c hc hme => ⟨w, .refl w, ?_⟩) fun c note log => ?_
  · cases hl : Text.nextLine? c.input <;>
      simp only [Run.readLine, bind_apply, get_apply, set_apply, pure_apply, hl]
    · exact ⟨hc, hme, trivial⟩
    · exact ⟨hc.recast _ _ _ _ _, hme, trivial⟩
  · have hinput : (c.withLog log).input = c.input := rfl
    cases hl : Text.nextLine? c.input <;>
      simp only [Run.readLine, bind_apply, get_apply, set_apply, pure_apply, hl, hinput]
    all_goals rfl

theorem freshId : Safe me w anyEnd Run.freshId fun _ => Run.freshId :=
  silent (fun _ hc hme => ⟨w, .refl w, hc.recast _ _ _ _ _, hme, trivial⟩) fun _ _ _ => rfl

/-- Neither a local nor a global variable `this` is ever assigned. -/
theorem assign (env : Environment) {name : String} (hname : name ≠ "this") {v : Value}
    (hv : v.Sound w) :
    Safe me w anyEnd (Run.assign env name v) fun _ => Run.assign env.quiet name v := by
  refine silent (fun c hc hme => ⟨w, .refl w, ?_⟩) fun c note log => ?_
  · cases hs : c.frame.scope with
    | none =>
      cases hd : env.debug <;>
        simp only [Run.assign, Run.debug, bind_apply, get_apply, hs, hd]
      · exact ⟨hc.withGlobal hname hv, hme, trivial⟩
      · exact ⟨(hc.withGlobal hname hv).recast _ _ _ _ _, hme, trivial⟩
    | some scope =>
      have hframe := hc.frame.insert hs hname hv
      cases hd : env.debug <;>
        simp only [Run.assign, Run.debug, bind_apply, get_apply, hs, hd]
      · exact ⟨hc.withFrame hframe, hme, trivial⟩
      · exact ⟨(hc.withFrame hframe).recast _ _ _ _ _, hme, trivial⟩
  · have hscope : (c.withLog log).frame.scope = c.frame.scope := rfl
    cases hs : c.frame.scope <;> cases hd : env.debug <;>
      simp only [Run.assign, Run.debug, bind_apply, get_apply, hscope, hs, hd] <;> rfl

theorem lookup (name : String) (line : Nat) :
    Safe me w (fun u v => v.Sound u) (Run.lookup name line) fun _ => Run.lookup name line := by
  refine get (fun _ _ _ => rfl) fun c hc _ => ?_
  cases hv : (c.frame.scope.bind (·.get? name)).or (c.globals.get? name) with
  | none => exact faultAt _ _
  | some v =>
    refine pure ?_
    rcases Option.or_eq_some_iff.mp hv with hlocal | ⟨_, hglobal⟩
    · obtain ⟨scope, hs, hget⟩ := Option.bind_eq_some_iff.mp hlocal
      exact hc.frame.values v (Frame.values_eq hs ▸ Bindings.mem_values_of_get? hget)
    · exact hc.globals v (Bindings.mem_values_of_get? hglobal)

/-- A class of the table has an answer for every name. -/
theorem resolve {i : Nat} (hi : i < w.classes.size) (name : String) :
    Safe me w (fun u r => u.classes.search? i name = some r) (Run.resolve i name)
      fun _ => Run.resolve i name := by
  obtain ⟨r, hr⟩ := w.wellFormed.search?_isSome hi name
  obtain ⟨t, ht⟩ := w.wellFormed.resolve?_complete hr
  obtain ⟨hwf, ext⟩ := w.wellFormed.resolve? ht
  have hdeclared (j : Nat) (d : ClassDef) (hd : t.classes[j]? = some d) : d.Declared :=
    w.declared j d (by rw [← (ClassTable.WellFormed.resolve?_classes ht).1]; exact hd)
  have step {c : Context} (hc : c.classes = w.classes) :
      Run.resolve i name c = (.ok r, { c with classes := t }) :=
    Run.resolve_apply (by rw [hc]; exact ht)
  intro c hc hme
  refine ⟨w.withClasses t hwf ext hdeclared, [],
    .done (w.grows_withClasses t hwf ext hdeclared), ?_⟩
  refine ⟨?_, ?_, ?_, fun note log => ?_⟩
  · rw [step hc.classes]; exact hc.withClasses hwf ext hdeclared
  · rw [step hc.classes]; exact hme
  · rw [step hc.classes]
    exact (w.wellFormed.search?_of_extends ext hi name).trans hr
  · have hlog : (c.withLog log).classes = w.classes := hc.classes
    rw [step hc.classes]
    exact step hlog

theorem chain {i : Nat} (hi : i < w.classes.size) :
    Safe me w (fun u indices => u.classes.chain? i = some indices) (Run.chain i)
      fun _ => Run.chain i := by
  refine get (fun _ _ _ => rfl) fun c hc _ => ?_
  obtain ⟨rest, hchain, _⟩ := w.wellFormed.chain?_spec hi
  rw [hc.classes, hchain]
  exact pure hchain

theorem classAt {i : Nat} (hi : i < w.classes.size) :
    Safe me w (fun u d => u.classes.classes[i]? = some d) (Run.classAt i)
      fun _ => Run.classAt i := by
  refine get (fun _ _ _ => rfl) fun c hc _ => ?_
  obtain ⟨d, hd⟩ := ClassTable.exists_class hi
  rw [hc.classes, hd]
  exact pure hd

theorem allocate {i : Nat} {d : ClassDef} (hd : w.classes.classes[i]? = some d) :
    Safe me w (fun u o => o ∈ u.objects ∧ o.classIndex = i) (Run.allocate i d.name)
      fun _ => Run.allocate i d.name := by
  refine silent (fun c hc hme => ⟨w.allocating i d hd, w.grows_allocating i d hd, ?_⟩)
    fun _ _ _ => rfl
  refine ⟨hc.allocating hd, hme, ?_, rfl⟩
  rw [hc.size]
  exact List.mem_append_right _ (List.mem_singleton_self _)

theorem writeField {o : Instance} {x : String} (ho : o ∈ w.objects)
    (hx : w.classes.Resolves Member.isField o.classIndex x) {v : Value} (hv : v.Sound w) :
    Safe me w (fun u _ => u.assigned o.id x) (Run.writeField o x v) fun _ => Run.writeField o x v :=
  silent (fun _ hc hme => ⟨w.assigning o x ho hx, w.grows_assigning o x ho hx,
    hc.assigning ho hx hv, hme, Or.inr ⟨rfl, rfl⟩⟩) fun _ _ _ => rfl

theorem readField (o : Instance) (x : String) :
    Safe me w (fun u v => v.Sound u) (Run.readField o x) fun _ => Run.readField o x := by
  refine get (fun _ _ _ => rfl) fun c hc _ => pure ?_
  cases hv : (c.fieldsOf o).get? x with
  | none => exact .null
  | some v =>
    change (c.heap[o.id]?.getD {}).get? x = some v at hv
    cases hfields : c.heap[o.id]? with
    | none => rw [hfields] at hv; cases hv
    | some fields =>
      rw [hfields] at hv
      exact hc.heap o.id fields hfields v (Bindings.mem_values_of_get? hv)

end Safe

end Run

end ClassScript
