import ClassScript.Eval
import ClassScript.Proofs.Blur

/-!
# Runs that are the same up to a blur

Two computations agree when, started in contexts that are the same up to a blur, they end in such
contexts, with results that belong together or by stops that differ in no more than the line of a
fault. Agreement is closed under the ways in which computations are put together. It is symmetric
and transitive, but to agree with itself is a property that a computation has to earn: it may not
look at a detail that the blur leaves out, except to report a fault at a line.
-/

namespace ClassScript

def Fault.blur (b : Blur) (f : Fault) : Fault :=
  { f with line := f.line.map b.line }

theorem Fault.blur_withLine (b : Blur) (f : Fault) (line : Nat) :
    (f.withLine line).blur b = (f.blur b).withLine (b.line line) := by
  obtain ⟨cause, _ | _, trace⟩ := f <;> rfl

namespace Stop

def blur (b : Blur) : Stop → Stop
  | fault f => .fault (f.blur b)
  | s => s

theorem blur_withLine (b : Blur) (s : Stop) (line : Nat) :
    (s.withLine line).blur b = (s.blur b).withLine (b.line line) := by
  cases s with
  | fault f => exact congrArg fault (f.blur_withLine b line)
  | _ => rfl

theorem blur_withTrace (b : Blur) (s : Stop) (calls : List String) :
    (s.withTrace calls).blur b = (s.blur b).withTrace calls := by
  cases s <;> rfl

/-- Only faults have lines to differ in. -/
theorem eq_or_fault {b : Blur} {s t : Stop} (h : s.blur b = t.blur b) :
    s = t ∨ ∃ f f', s = .fault f ∧ t = .fault f' := by
  cases s with
  | fault f =>
    cases t with
    | fault f' => exact Or.inr ⟨f, f', rfl, rfl⟩
    | _ => cases h
  | _ =>
    cases t with
    | fault => cases h
    | _ => exact Or.inl h

end Stop

/-- What two options hold differs in what `f` takes away. -/
theorem rel_of_map_eq {α β : Type} {f : α → β} {a a' : Option α} (h : a.map f = a'.map f) :
    Option.Rel (fun x y => f x = f y) a a' := by
  cases a with
  | none =>
    cases a' with
    | none => exact .none
    | some y => cases h
  | some x =>
    cases a' with
    | none => cases h
    | some y => exact .some (Option.some.inj h)

/-- The same value in both. -/
theorem rel_of_get?_mapValues {κ α β : Type} [DecidableEq κ] {f : α → β} {m m' : Bindings κ α}
    (h : m.mapValues f = m'.mapValues f) (key : κ) :
    Option.Rel (fun x y => f x = f y) (m.get? key) (m'.get? key) := by
  apply rel_of_map_eq
  rw [← Bindings.get?_mapValues, h, Bindings.get?_mapValues]

/-- Two lists that `f` makes equal are of one length, so induction goes through both at once. -/
theorem map_eq_induction {α β : Type} {f : α → β}
    {motive : (l l' : List α) → l.map f = l'.map f → Prop} (nil : motive [] [] rfl)
    (cons : ∀ a a' l l' (head : f a = f a') (tail : l.map f = l'.map f), motive l l' tail →
      motive (a :: l) (a' :: l') (List.cons_eq_cons.mpr ⟨head, tail⟩))
    (l l' : List α) (h : l.map f = l'.map f) : motive l l' h := by
  induction l generalizing l' with
  | nil =>
    cases l' with
    | nil => exact nil
    | cons => cases h
  | cons a l ih =>
    cases l' with
    | nil => cases h
    | cons a' l' =>
      obtain ⟨head, tail⟩ := List.cons.inj h
      exact cons a a' l l' head tail (ih l' tail)

variable {b : Blur}

namespace Context

variable {c d : Context} (same : c.blur b = d.blur b)

include same

theorem frame_of_same : c.frame = d.frame := by
  change (c.blur b).frame = (d.blur b).frame
  rw [same]

theorem globals_of_same : c.globals = d.globals := by
  change (c.blur b).globals = (d.blur b).globals
  rw [same]

theorem heap_of_same : c.heap = d.heap := by
  change (c.blur b).heap = (d.blur b).heap
  rw [same]

theorem input_of_same : c.input = d.input := by
  change (c.blur b).input = (d.blur b).input
  rw [same]

theorem output_of_same : c.output = d.output := by
  change (c.blur b).output = (d.blur b).output
  rw [same]

theorem classes_of_same : c.classes.blur b = d.classes.blur b := by
  change (c.blur b).classes = (d.blur b).classes
  rw [same]

/-- A name is that of the same class. -/
theorem index?_of_same (name : String) : c.classes.index? name = d.classes.index? name := by
  change (c.classes.blur b).index? name = (d.classes.blur b).index? name
  rw [classes_of_same same]

theorem contains_of_same (name : String) : c.classes.contains name = d.classes.contains name :=
  congrArg Option.isSome (index?_of_same same name)

theorem lookup_of_same (name : String) : c.classes.lookup name = d.classes.lookup name := by
  rw [ClassTable.lookup, ClassTable.lookup, index?_of_same same]

theorem define_of_same (k : ClassDef) :
    (c.classes.define k).map (Prod.map id (ClassTable.blur b)) =
      (d.classes.define (k.blur b)).map (Prod.map id (ClassTable.blur b)) := by
  rw [← ClassTable.define_blur, ← ClassTable.define_blur, classes_of_same same, k.blur_twice]

theorem function_of_same (name : String) :
    Option.Rel (fun f f' => Function.blur b f = Function.blur b f')
      (c.functions.get? name) (d.functions.get? name) :=
  rel_of_get?_mapValues (congrArg functions same) name

theorem interface_of_same (name : String) :
    Option.Rel (fun ss ss' => ss.map (Signature.blur b) = ss'.map (Signature.blur b))
      (c.interfaces.get? name) (d.interfaces.get? name) :=
  rel_of_get?_mapValues (congrArg interfaces same) name

theorem class_of_same (i : Nat) :
    Option.Rel (fun k k' => ClassDef.blur b k = ClassDef.blur b k')
      c.classes.classes[i]? d.classes.classes[i]? := by
  apply rel_of_map_eq
  rw [← ClassTable.getElem?_blur, classes_of_same same, ClassTable.getElem?_blur]

theorem classNamed_of_same (name : String) :
    Option.Rel (fun k k' => ClassDef.blur b k = ClassDef.blur b k')
      (c.classes.get? name) (d.classes.get? name) := by
  apply rel_of_map_eq
  rw [← ClassTable.get?_blur, classes_of_same same, ClassTable.get?_blur]

theorem resolve?_of_same (i : Nat) (name : String) :
    Option.Rel (fun p q => Prod.map (Resolution.blur b) (ClassTable.blur b) p =
        Prod.map (Resolution.blur b) (ClassTable.blur b) q)
      (c.classes.resolve? i name) (d.classes.resolve? i name) := by
  apply rel_of_map_eq
  rw [← ClassTable.resolve?_blur, classes_of_same same, ClassTable.resolve?_blur]

theorem findMethod?_of_same (i : Option Nat) (name : String) :
    Option.Rel (fun r r' => Resolution.blur b r = Resolution.blur b r')
      (c.classes.findMethod? i name) (d.classes.findMethod? i name) := by
  apply rel_of_map_eq
  rw [← ClassTable.findMethod?_blur, classes_of_same same, ClassTable.findMethod?_blur]

theorem chain?_of_same (i : Nat) : c.classes.chain? i = d.classes.chain? i := by
  rw [← ClassTable.chain?_blur b, classes_of_same same, ClassTable.chain?_blur]

end Context

/-- Results that belong together, or stops that differ in the line of a fault at most. -/
inductive EndAlike (b : Blur) {α β : Type} (R : α → β → Prop) :
    Except Stop α → Except Stop β → Prop
  | ok {a : α} {a' : β} (h : R a a') : EndAlike b R (.ok a) (.ok a')
  | error {s t : Stop} (h : s.blur b = t.blur b) : EndAlike b R (.error s) (.error t)

namespace Run

/-- From contexts that are the same up to the blur, `x` and `y` do the same up to it, results being
related by `R`. -/
def Agree (b : Blur) {α β : Type} (R : α → β → Prop) (x : Run α) (y : Run β) : Prop :=
  ∀ c d : Context, c.blur b = d.blur b →
    EndAlike b R (x c).1 (y d).1 ∧ (x c).2.blur b = (y d).2.blur b

namespace Agree

variable {α β γ δ : Type} {R : α → β → Prop} {S : γ → δ → Prop} {x : Run α} {y : Run β}

theorem symm {x y : Run α} (h : Agree b Eq x y) : Agree b Eq y x := by
  intro c d same
  obtain ⟨hend, hctx⟩ := h d c same.symm
  refine ⟨?_, hctx.symm⟩
  generalize (x d).1 = r, (y c).1 = r' at hend ⊢
  cases hend with
  | ok h => exact .ok h.symm
  | error h => exact .error h.symm

/-- The computation in between may start in either context. -/
theorem trans {x y z : Run α} (hxy : Agree b Eq x y) (hyz : Agree b Eq y z) : Agree b Eq x z := by
  intro c d same
  obtain ⟨first, hctx⟩ := hxy c c rfl
  obtain ⟨second, hctx'⟩ := hyz c d same
  refine ⟨?_, hctx.trans hctx'⟩
  generalize (x c).1 = r, (y c).1 = r', (z d).1 = r'' at first second ⊢
  cases first with
  | ok h =>
    cases second with
    | ok h' => exact .ok (h.trans h')
  | error h =>
    cases second with
    | error h' => exact .error (h.trans h')

/-- Runs of trees that both agree with the run of the blurred tree agree with each other when that
tree is the same. -/
theorem of_blurred {τ : Type} {blur : τ → τ} {run run' : τ → Run α}
    (h : ∀ t, Agree b Eq (run t) (run' (blur t))) (h' : ∀ t, Agree b Eq (run' t) (run' (blur t)))
    {t t' : τ} (same : blur t = blur t') : Agree b Eq (run t) (run' t') :=
  (h t).trans (same ▸ (h' t').symm)

theorem mono {R' : α → β → Prop} (h : ∀ a a', R a a' → R' a a') (hx : Agree b R x y) :
    Agree b R' x y := by
  intro c d same
  obtain ⟨hend, hctx⟩ := hx c d same
  refine ⟨?_, hctx⟩
  generalize (x c).1 = r, (y d).1 = r' at hend ⊢
  cases hend with
  | ok ha => exact .ok (h _ _ ha)
  | error hs => exact .error hs

/-- A computation that neither looks at a stored tree nor changes one. -/
theorem blind {x : Run α} (h : ∀ c, x (c.blur b) = ((x c).1, (x c).2.blur b)) :
    Agree b Eq x x := by
  intro c d same
  have both : ((x c).1, (x c).2.blur b) = ((x d).1, (x d).2.blur b) := by
    rw [← h c, ← h d, same]
  obtain ⟨hend, hctx⟩ := Prod.mk.inj both
  refine ⟨?_, hctx⟩
  rw [hend]
  generalize (x d).1 = r
  cases r with
  | ok a => exact .ok rfl
  | error s => exact .error rfl

theorem pure {a : α} {a' : β} (h : R a a') : Agree b R (Pure.pure a) (Pure.pure a') :=
  fun _ _ same => ⟨.ok h, same⟩

theorem stop {s t : Stop} (h : s.blur b = t.blur b) : Agree b R (Run.stop s) (Run.stop t) :=
  fun _ _ same => ⟨.error h, same⟩

theorem faultAt (cause : Cause) {line line' : Nat} (h : b.line line = b.line line') :
    Agree b R (Run.faultAt cause line) (Run.faultAt cause line') :=
  stop (congrArg (fun l => Stop.fault (.onLine cause l)) h)

theorem refuseIf (condition : Bool) (cause : Cause) {line line' : Nat}
    (h : b.line line = b.line line') :
    Agree b Eq (Run.refuseIf condition cause line) (Run.refuseIf condition cause line') := by
  cases condition with
  | true => exact faultAt cause h
  | false => exact pure rfl

theorem ofExcept (r : Except Cause α) : Agree b Eq (Run.ofExcept r) (Run.ofExcept r) := by
  cases r with
  | ok a => exact pure rfl
  | error cause => exact stop rfl

theorem ofExceptAtWith {φ : α → γ} {r r' : Except Cause α} (same : r.map φ = r'.map φ)
    {line line' : Nat} (h : b.line line = b.line line') :
    Agree b (fun a a' => φ a = φ a') (Run.ofExceptAt line r) (Run.ofExceptAt line' r') := by
  cases r with
  | ok a =>
    cases r' with
    | ok a' => exact pure (Except.ok.inj same)
    | error cause => cases same
  | error cause =>
    cases r' with
    | ok a' => cases same
    | error cause' =>
      cases same
      exact faultAt cause h

theorem ofExceptAt (r : Except Cause α) {line line' : Nat} (h : b.line line = b.line line') :
    Agree b Eq (Run.ofExceptAt line r) (Run.ofExceptAt line' r) :=
  ofExceptAtWith (φ := id) rfl h

theorem bindWith {f : α → Run γ} {g : β → Run δ} (hx : Agree b R x y)
    (hf : ∀ a a', R a a' → Agree b S (f a) (g a')) : Agree b S (x >>= f) (y >>= g) := by
  intro c d same
  obtain ⟨hend, hctx⟩ := hx c d same
  rw [bind_apply, bind_apply]
  rcases hc : x c with ⟨r, c'⟩
  rcases hd : y d with ⟨r', d'⟩
  rw [hc, hd] at hend hctx
  cases hend with
  | ok h => exact hf _ _ h c' d' hctx
  | error h => exact ⟨.error h, hctx⟩

theorem bind {x y : Run α} {f : α → Run γ} {g : α → Run δ} (hx : Agree b Eq x y)
    (hf : ∀ a, Agree b S (f a) (g a)) : Agree b S (x >>= f) (y >>= g) :=
  hx.bindWith fun a _ h => h ▸ hf a

theorem get {f : Context → Run α} {g : Context → Run β}
    (h : ∀ c d, c.blur b = d.blur b → Agree b R (f c) (g d)) :
    Agree b R (MonadState.get >>= f) (MonadState.get >>= g) :=
  fun c d same => h c d same c d same

theorem update {f g : Context → Context}
    (h : ∀ c d, c.blur b = d.blur b → (f c).blur b = (g d).blur b) :
    Agree b Eq (modify f : Run PUnit) (modify g) :=
  fun c d same => ⟨.ok rfl, h c d same⟩

/-- Only the way of ending is changed, perhaps by a look at the frame, which is the same. -/
theorem onResult (ρ : Frame → Except Stop α → Except Stop γ)
    (ρ' : Frame → Except Stop β → Except Stop δ)
    (hρ : ∀ f r r', EndAlike b R r r' → EndAlike b S (ρ f r) (ρ' f r')) (hx : Agree b R x y) :
    Agree b S (fun c => (ρ (x c).2.frame (x c).1, (x c).2))
      fun d => (ρ' (y d).2.frame (y d).1, (y d).2) := by
  intro c d same
  obtain ⟨hend, hctx⟩ := hx c d same
  refine ⟨?_, hctx⟩
  dsimp only
  rw [Context.frame_of_same hctx]
  exact hρ _ _ _ hend

theorem mapStop {f g : Stop → Stop}
    (hf : ∀ s t, s.blur b = t.blur b → (f s).blur b = (g t).blur b)
    (hx : Agree b R x y) : Agree b R (x.mapStop f) (y.mapStop g) := by
  simp only [mapStop_eq]
  refine hx.onResult (fun _ => Except.mapError f) (fun _ => Except.mapError g) ?_
  rintro _ _ _ (h | h)
  · exact .ok h
  · exact .error (hf _ _ h)

/-- The line given to a fault that has none may be another. -/
theorem atLine {line line' : Nat} (h : b.line line = b.line line') (hx : Agree b R x y) :
    Agree b R (x.atLine line) (y.atLine line') :=
  hx.mapStop fun s t same => by rw [s.blur_withLine, t.blur_withLine, same, h]

theorem tracing (hx : Agree b R x y) : Agree b R x.tracing y.tracing := by
  simp only [tracing_eq]
  refine hx.onResult (fun f => Except.mapError (Stop.withTrace f.calls))
    (fun f => Except.mapError (Stop.withTrace f.calls)) fun f r r' hend => ?_
  cases hend with
  | ok h => exact .ok h
  | @error s t h =>
    refine .error ?_
    rw [s.blur_withTrace, t.blur_withTrace, h]

theorem inFrame (enter leave : Frame → Frame) (hx : Agree b R x y) :
    Agree b R (Run.inFrame enter leave x) (Run.inFrame enter leave y) := by
  intro c d same
  have inner : ({ c with frame := enter c.frame } : Context).blur b =
      ({ d with frame := enter d.frame } : Context).blur b :=
    congrArg (fun e : Context => { e with frame := enter e.frame }) same
  obtain ⟨hend, hctx⟩ := hx _ _ inner
  rw [Run.inFrame, Run.inFrame]
  rcases hc : x { c with frame := enter c.frame } with ⟨r, c'⟩
  rcases hd : y { d with frame := enter d.frame } with ⟨r', d'⟩
  rw [hc, hd] at hend hctx
  refine ⟨hend, ?_⟩
  rw [Context.frame_of_same same]
  exact congrArg (fun e : Context => { e with frame := (leave e.frame).resuming d.frame }) hctx

theorem attempt {x y : Run α} (hx : Agree b Eq x y) : Agree b Eq x.attempt y.attempt := by
  simp only [attempt_eq]
  refine hx.onResult (fun _ => caught) (fun _ => caught) fun _ r r' hend => ?_
  cases hend with
  | ok h => exact .ok (congrArg Except.ok h)
  | @error s t h =>
    rcases Stop.eq_or_fault h with rfl | ⟨f, f', rfl, rfl⟩
    · cases s with
      | raised v trace => exact .ok rfl
      | _ => exact .error rfl
    · exact .error h

theorem resume (r : Except (Value × List String) α) :
    Agree b Eq (Run.resume r) (Run.resume r) := by
  cases r with
  | ok a => exact pure rfl
  | error e => exact stop rfl

theorem forM {φ : α → γ} {f g : α → Run PUnit} (h : ∀ a a', φ a = φ a' → Agree b Eq (f a) (g a'))
    {l l' : List α} (hl : l.map φ = l'.map φ) : Agree b Eq (l.forM f) (l'.forM g) := by
  induction l, l', hl using map_eq_induction with
  | nil => exact pure rfl
  | cons a a' l l' head _ ih => exact (h a a' head).bind fun _ => ih

/-- The line may be another where the log is not compared. -/
theorem debug {env env' : Environment} (henv : env.debug = env'.debug)
    {line line' : Unit → String} (h : b.log = true → line () = line' ()) :
    Agree b Eq (Run.debug env line) (Run.debug env' line') := by
  rw [Run.debug, Run.debug, henv]
  split
  · refine update fun c d same => ?_
    have log : (if b.log then line () :: c.log else []) =
        if b.log then line' () :: d.log else [] := by
      have logs : (if b.log then c.log else []) = if b.log then d.log else [] :=
        congrArg Context.log same
      cases hb : b.log with
      | false => rfl
      | true =>
        rw [hb] at logs
        rw [h hb]
        exact congrArg (List.cons (line' ())) logs
    calc ({ c with log := line () :: c.log } : Context).blur b
        = { c.blur b with log := if b.log then line () :: c.log else [] } := rfl
      _ = { d.blur b with log := if b.log then line' () :: d.log else [] } := by rw [same, log]
  · exact pure rfl

theorem write (text : String) : Agree b Eq (Run.write text) (Run.write text) :=
  blind fun _ => rfl

theorem readLine : Agree b Eq Run.readLine Run.readLine := by
  refine blind fun c => ?_
  have input : (c.blur b).input = c.input := rfl
  cases hl : Text.nextLine? c.input <;>
    simp only [Run.readLine, bind_apply, get_apply, set_apply, pure_apply, hl, input]
  all_goals rfl

theorem freshId : Agree b Eq Run.freshId Run.freshId :=
  blind fun _ => rfl

theorem allocate (classIndex : Nat) (className : String) :
    Agree b Eq (Run.allocate classIndex className) (Run.allocate classIndex className) :=
  blind fun _ => rfl

theorem writeField (self : Instance) (name : String) (value : Value) :
    Agree b Eq (Run.writeField self name value) (Run.writeField self name value) :=
  blind fun _ => rfl

theorem readField (self : Instance) (name : String) :
    Agree b Eq (Run.readField self name) (Run.readField self name) :=
  blind fun _ => rfl

theorem assign {env env' : Environment} (henv : env.debug = env'.debug) (name : String)
    (value : Value) : Agree b Eq (Run.assign env name value) (Run.assign env' name value) := by
  refine get fun c d same => ?_
  rw [Context.frame_of_same same]
  cases d.frame.scope with
  | none => exact (debug henv fun _ => rfl).bind fun _ => blind fun _ => rfl
  | some scope => exact (debug henv fun _ => rfl).bind fun _ => blind fun _ => rfl

theorem lookup (name : String) {line line' : Nat} (h : b.line line = b.line line') :
    Agree b Eq (Run.lookup name line) (Run.lookup name line') := by
  refine get fun c d same => ?_
  rw [Context.frame_of_same same, Context.globals_of_same same]
  cases (d.frame.scope.bind (·.get? name)).or (d.globals.get? name) with
  | none => exact faultAt _ h
  | some v => exact pure rfl

theorem chain (i : Nat) : Agree b Eq (Run.chain i) (Run.chain i) := by
  refine get fun c d same => ?_
  rw [Context.chain?_of_same same]
  cases d.classes.chain? i with
  | none => exact stop rfl
  | some indices => exact pure rfl

theorem classAt (i : Nat) :
    Agree b (fun k k' => k.blur b = k'.blur b) (Run.classAt i) (Run.classAt i) := by
  refine get fun c d same => ?_
  have found := Context.class_of_same same i
  generalize c.classes.classes[i]? = k, d.classes.classes[i]? = k' at found ⊢
  cases found with
  | none => exact stop rfl
  | some h => exact pure h

/-- The table remembers answers that are the same up to the blur. -/
theorem resolve (i : Nat) (name : String) :
    Agree b (Resolution.Alike b) (Run.resolve i name) (Run.resolve i name) := by
  refine get fun c d same => ?_
  have found := Context.resolve?_of_same same i name
  generalize c.classes.resolve? i name = p, d.classes.resolve? i name = q at found ⊢
  cases found with
  | none => exact stop rfl
  | @some p q h =>
    obtain ⟨answer, table⟩ := Prod.mk.inj h
    refine fun _ _ _ => ⟨.ok (Resolution.alike_of_blur answer), ?_⟩
    change ({ c.blur b with classes := p.2.blur b } : Context) =
      { d.blur b with classes := q.2.blur b }
    rw [same, table]

end Agree

end Run

end ClassScript
