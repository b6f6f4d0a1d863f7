import ClassScript.Proofs.SessionSafety

/-!
# The object model through every session

Whatever sources a session runs, at every event of its history each object that is held anywhere,
and each that has been held before, is what its class says: its class is in the table under its
name, its fields are fields of the class, and once `new` has given it out it has all of them. A
bound method is a method of its object's class. So no class index leads out of the table, a bound
method is always found when it is called, and a field of an object that `new` has given out always
has a value.
-/

namespace ClassScript

/-- An object is held at an event, as itself or as the receiver of a bound method. -/
def Event.HoldsObject (ev : Event) (o : Instance) : Prop :=
  ev.Holds (.object o) ∨ ∃ id name, ev.Holds (.method id o name)

namespace Context

/-- The class of the object is in the table under its name, and has all the fields of the object. -/
structure Describes (c : Context) (o : Instance) : Prop where
  classed : ∃ d, c.classes.classes[o.classIndex]? = some d ∧ d.name = o.className
  fields : ∀ x ∈ (c.fieldsOf o).keys, c.classes.Resolves Member.isField o.classIndex x

/-- The object has exactly the fields that are declared on the chain of its class. -/
def Completes (c : Context) (o : Instance) : Prop :=
  ∃ chain, c.classes.chain? o.classIndex = some chain ∧ ∀ x, x ∈ (c.fieldsOf o).keys ↔
    ∃ i ∈ chain, ∃ d : ClassDef, c.classes.classes[i]? = some d ∧ x ∈ d.fieldNames

/-- Every field that the class of the object has is read as a value that has been assigned. -/
def ReadsFields (c : Context) (o : Instance) : Prop :=
  ∀ x, c.classes.Resolves Member.isField o.classIndex x →
    ∃ v u, (c.fieldsOf o).get? x = some v ∧
      ∀ line, readMember (.object o) x line c = (.ok v, { c with classes := u })

end Context

/-- `callMethod` with something else for the case that the name does not mean a method. -/
def callMethodOr (otherwise : Run Value) (env : Environment) (k : Evaluators) (self : Instance)
    (name : String) (args : List Value) (line : Nat) : Run Value := do
  match ← Run.resolve self.classIndex name with
  | .found owner (.method _ _ params body _ _ _) =>
    noteCall env self name args
    invoke env k name ⟨params, body⟩ args (some ⟨self, owner⟩) line
  | _ => otherwise

theorem callMethod_eq (env : Environment) (k : Evaluators) (self : Instance) (name : String)
    (args : List Value) (line : Nat) :
    callMethod env k self name args line =
      callMethodOr (Run.faultAt (.undefinedMember self.className name) line) env k self name args
        line := rfl

/-- `callMember` with something else for the case that a bound method is not found any more. -/
def callMemberOr (otherwise : Run Value) (env : Environment) (k : Evaluators) (target : Expr)
    (name : String) (args : List Expr) (line : Nat) : Run Value := do
  let object ← k.eval target
  match ← readMember object name line with
  | .method _ self method =>
    let values ← k.evalAll args
    callMethodOr otherwise env k self method values line
  | v => Run.faultAt (.notAMethod v.toText) line

/-- Why a run or a part of it stopped. -/
def Moment.stop? : Moment → Option Stop
  | .evaluated _ (.error stop) | .executed _ (.error stop) | .ended (.error stop) => some stop
  | .began | .evaluating _ | .executing _ | .evaluated _ (.ok _) | .executed _ (.ok _)
  | .ended (.ok _) => none

namespace World

variable {w : World}

theorem mem_fieldNames_iff {i : Nat} {d : ClassDef} (hd : w.classes.classes[i]? = some d)
    (x : String) :
    x ∈ d.fieldNames ↔ ∃ m, w.classes.member? i x = some m ∧ m.isField = true := by
  have declared := w.declared i d hd
  rw [ClassTable.member?, hd, Option.bind_some]
  constructor
  · intro h
    obtain ⟨m, hm, rfl⟩ := List.mem_map.mp h
    obtain ⟨hvalue, hfield⟩ := List.mem_filter.mp hm
    exact ⟨m, declared.get?_name hvalue, hfield⟩
  · rintro ⟨m, hm, hfield⟩
    refine List.mem_map.mpr ⟨m, List.mem_filter.mpr ⟨?_, hfield⟩, (declared.of_get? hm).1⟩
    exact Bindings.mem_values_of_get? hm

end World

namespace Context.Fits

variable {c : Context} {w : World} {o : Instance}

theorem describes (hc : c.Fits w) (ho : o ∈ w.objects) : c.Describes o := by
  constructor
  · rw [hc.classes]
    exact w.named o ho
  · intro x hx
    obtain ⟨o', ho', hfield⟩ := w.fields o.id x ((hc.mem_keys_iff o x).mp hx)
    cases (World.getElem?_id ho).symm.trans ho'
    rw [hc.classes]
    exact hfield

theorem completes (hc : c.Fits w) (ho : o ∈ w.objects) (complete : w.Complete o) :
    c.Completes o := by
  obtain ⟨rest, hchain, _⟩ := w.wellFormed.chain?_spec (World.classIndex_lt ho)
  refine ⟨_, by rw [hc.classes]; exact hchain, fun x => ?_⟩
  rw [hc.classes]
  have fields : w.classes.Resolves Member.isField o.classIndex x ↔ x ∈ (c.fieldsOf o).keys := by
    rw [hc.mem_keys_iff]
    refine ⟨complete x, fun hx => ?_⟩
    have hkeys := (hc.describes ho).fields x ((hc.mem_keys_iff o x).mpr hx)
    rwa [hc.classes] at hkeys
  rw [← fields, w.wellFormed.resolves_field_iff hchain]
  refine exists_congr fun i => and_congr_right fun hi => ?_
  obtain ⟨d, hd⟩ := ClassTable.exists_class (w.wellFormed.mem_chain?_lt hchain hi)
  rw [← World.mem_fieldNames_iff hd]
  simp [hd]

theorem readsFields (hc : c.Fits w) (complete : w.Complete o) : c.ReadsFields o := by
  intro x hx
  have hkey := (hc.mem_keys_iff o x).mpr (complete x (hc.classes ▸ hx))
  obtain ⟨v, hv⟩ := Option.isSome_iff_exists.mp ((Bindings.mem_keys_iff _ x).mp hkey)
  obtain ⟨owner, m, u, hresolve, hfield⟩ := hx
  exact ⟨v, u, hv, fun line => readMember_of_field hfield hresolve hv line⟩

/-- A bound method is found when it is called, at once or later. -/
theorem callMethod_eq (hc : c.Fits w) {name : String}
    (hm : w.classes.Resolves Member.isMethod o.classIndex name) (otherwise : Run Value)
    (env : Environment) (k : Evaluators) (args : List Value) (line : Nat) :
    callMethod env k o name args line c = callMethodOr otherwise env k o name args line c := by
  obtain ⟨owner, m, u, hresolve, hmethod⟩ := hm
  rw [← hc.classes] at hresolve
  cases m with
  | field => cases hmethod
  | method x a params body v ov l =>
    rw [ClassScript.callMethod_eq, callMethodOr, callMethodOr, Run.bind_apply, Run.bind_apply,
      Run.resolve_apply hresolve]

end Context.Fits

namespace Run.Safe

variable {α β : Type} {me : Option Instance} {w : World} {P : World → α → Prop} {x : Run α}
  {y : Scribe → Run α}

/-- What comes second only has to agree where the first can lead. -/
theorem bind_congr (hx : Safe me w P x y) {f g : α → Run β}
    (h : ∀ u, w.Grows u → ∀ a, P u a → ∀ c : Context, c.Fits u → c.frame.self = me →
      f a c = g a c)
    {c : Context} (hc : c.Fits w) (hme : c.frame.self = me) : (x >>= f) c = (x >>= g) c := by
  obtain ⟨u, _, hpass, hfits, hself, hends, _⟩ := hx c hc hme
  rw [bind_apply, bind_apply]
  rcases hr : x c with ⟨stop | a, c'⟩
  · rfl
  · rw [hr] at hfits hself hends
    exact h u hpass.grows a hends c' hfits hself

end Run.Safe

/-- The case that a bound method is not found any more does not arise. -/
theorem callMember_eq {c : Context} {w : World} (hc : c.Fits w) {k : Evaluators}
    {k' : Scribe → Evaluators} (hk : k.Safe k') (otherwise : Run Value) (env : Environment)
    (target : Expr) (name : String) (args : List Expr) (line : Nat) :
    callMember env k target name args line c =
      callMemberOr otherwise env k target name args line c := by
  refine (safe_eval hk target).bind_congr (fun u _ object hobject c₁ hc₁ hme₁ => ?_) hc rfl
  refine (safe_readMember hobject name line).bind_congr (fun u' _ v hv c₂ hc₂ hme₂ => ?_) hc₁ hme₁
  cases v with
  | method id o method =>
    refine (safe_evalAll hk args).bind_congr (fun u'' grows vs _ c₃ hc₃ _ => ?_) hc₂ hme₂
    have hm := (Value.Sound.method hv id o method .whole).2
    exact hc₃.callMethod_eq (grows.resolves hm) otherwise env k vs line
  | _ => rfl

namespace Event.Sound

variable {ev : Event} {w : World}

theorem values (h : ev.Sound w) : ∀ v ∈ ev.moment.values ++ ev.context.values, v.Sound w := by
  have stopped {stop : Stop} (hs : stop.Sound w) : ∀ v ∈ stop.values, v.Sound w := by
    cases stop with
    | raised v trace => intro v' hv'; cases List.mem_singleton.mp hv'; exact hs
    | _ => rintro v ⟨⟩
  intro v hv
  rcases List.mem_append.mp hv with hv | hv
  · have hmoment := h.moment
    cases hm : ev.moment with
    | began => rw [hm] at hv; cases hv
    | evaluating e => rw [hm] at hv; cases hv
    | executing s => rw [hm] at hv; cases hv
    | evaluated e result =>
      rw [hm] at hv hmoment
      cases result with
      | ok a => cases List.mem_singleton.mp hv; exact hmoment.1
      | error stop => exact stopped hmoment v hv
    | executed s result | ended result =>
      rw [hm] at hv hmoment
      cases result with
      | ok outcome => exact hmoment v hv
      | error stop => exact stopped hmoment v hv
  · exact h.fits.values v hv

theorem holdsObject (h : ev.Sound w) {o : Instance} (ho : ev.HoldsObject o) : o ∈ w.objects := by
  rcases ho with ⟨v, hv, hpart⟩ | ⟨id, name, v, hv, hpart⟩
  · exact (h.values v hv).object o hpart
  · exact ((h.values v hv).method id o name hpart).1

theorem holdsMethod (h : ev.Sound w) {id : Nat} {o : Instance} {name : String}
    (hm : ev.Holds (.method id o name)) : w.classes.Resolves Member.isMethod o.classIndex name := by
  obtain ⟨v, hv, hpart⟩ := hm
  exact ((h.values v hv).method id o name hpart).2

theorem stop?_ne (h : ev.Sound w) : ev.moment.stop? ≠ some .badIndex := by
  intro hstop
  have hmoment := h.moment
  rcases hm : ev.moment with _ | _ | ⟨e, stop | v⟩ | _ | ⟨s, stop | outcome⟩ | ⟨stop | outcome⟩
  all_goals
    rw [hm] at hstop hmoment
    cases hstop
    try exact hmoment

end Event.Sound

/-- In the history of every session, with any sources and module files: an object that is held at
an event, anywhere, has from then on a class in the table, by index and name, and no fields but
fields of that class; a bound method that is held has from then on a name that means a method; and
an object that `new` has given out has from then on exactly the fields declared on its chain, so
that each of them is read as an assigned value. At no event has a class index led out of the table,
and whatever stood in the place of the error for a bound method that is not found, no call would end
otherwise. -/
theorem object_model_sound {s : Session} {past : List Event} (lived : s.Lived past) (debug : Bool)
    (source : String) :
    ∃ events, s.Passes debug source events ∧
      ∀ before ev after, past ++ events = before ++ ev :: after →
        (∀ o, ev.HoldsObject o → ∀ later ∈ ev :: after, later.context.Describes o) ∧
        (∀ id o name, ev.Holds (.method id o name) → ∀ later ∈ ev :: after,
          later.context.classes.Resolves Member.isMethod o.classIndex name) ∧
        (∀ className line v, ev.moment = .evaluated (.new className line) (.ok v) →
          ∃ o, v = .object o ∧ ∀ later ∈ ev :: after,
            later.context.Completes o ∧ later.context.ReadsFields o) ∧
        ev.moment.stop? ≠ some .badIndex ∧
        ∀ otherwise env n target name args line,
          callMember env (evaluators env n) target name args line ev.context =
            callMemberOr otherwise env (evaluators env n) target name args line ev.context := by
  obtain ⟨events, w, passes, hpass⟩ := lived.passage debug source
  refine ⟨events, passes, fun before ev after hsplit => ?_⟩
  rw [hsplit] at hpass
  obtain ⟨u, _, hev, hafter⟩ := hpass.split
  have later (other : Event) (hother : other ∈ ev :: after) :
      ∃ v, u.Grows v ∧ other.context.Fits v := by
    rcases List.mem_cons.mp hother with rfl | hmem
    · exact ⟨u, .refl u, hev.fits⟩
    · obtain ⟨v, grows, hsound⟩ := hafter.of_mem hmem
      exact ⟨v, grows, hsound.fits⟩
  refine ⟨fun o ho other hother => ?_, fun id o name hm other hother => ?_,
    fun className line v hmoment => ?_, hev.stop?_ne,
    fun otherwise env n target name args line => ?_⟩
  · obtain ⟨v, grows, hfits⟩ := later other hother
    exact hfits.describes (grows.mem (hev.holdsObject ho))
  · obtain ⟨v, grows, hfits⟩ := later other hother
    rw [hfits.classes]
    exact grows.resolves (hev.holdsMethod hm)
  · have hanswer := hev.moment
    rw [hmoment] at hanswer
    obtain ⟨o, rfl, complete⟩ := hanswer.2 className line rfl
    have ho := hanswer.1.object o .whole
    refine ⟨o, rfl, fun other hother => ?_⟩
    obtain ⟨v, grows, hfits⟩ := later other hother
    exact ⟨hfits.completes (grows.mem ho) (complete.mono ho grows),
      hfits.readsFields (complete.mono ho grows)⟩
  · exact callMember_eq hev.fits (evaluators_safe env n) otherwise env target name args line

private def opened : Session := .start (.ofList "" []) none true ""

private def objectSource : String :=
  "class A { me = this; x; } class B extends A { y; } b = new B;"

/-- One run makes an object that refers to itself before it is complete; in the next the
initialization of another object breaks off. -/
theorem object_model_sound_broken :
    ∃ past events, (opened.run false objectSource).2.Lived past ∧
      (opened.run false objectSource).2.Passes false
        "class C extends B { z = missing; } c = new C;" events ∧
      ∀ before ev after, past ++ events = before ++ ev :: after →
        (∀ o, ev.HoldsObject o → ∀ later ∈ ev :: after, later.context.Describes o) ∧
        ev.moment.stop? ≠ some .badIndex := by
  have start : opened.Lived [] := .start _ _ _ _
  obtain ⟨past, first, _⟩ := object_model_sound start false objectSource
  have lived := Session.Lived.run false objectSource start first
  obtain ⟨events, second, sound⟩ :=
    object_model_sound lived false "class C extends B { z = missing; } c = new C;"
  refine ⟨[] ++ past, events, lived, second, fun before ev after hsplit => ?_⟩
  obtain ⟨held, _, _, inside, _⟩ := sound before ev after hsplit
  exact ⟨held, inside⟩

end ClassScript
