import ClassScript.Proofs.BoundNames
import ClassScript.Proofs.Dispatch
import ClassScript.Proofs.History

/-!
# Objects, their classes and their fields

References to an object carry its class, while its fields lie in the heap. A `World` is what all
references have to agree on: the classes, which objects have been made and of what class, and which
of their fields have been assigned. Worlds grow and never shrink, so what is sound in a world stays
sound in every later one. A context fits a world when all it holds is sound there.
-/

namespace ClassScript

/-- `u` is `v`, or inside it when `v` is a list. -/
inductive Value.Part (u : Value) : Value → Prop
  | whole : Part u u
  | item {id : Nat} {items : List Value} {v : Value} :
    v ∈ items → Part u v → Part u (.list id items)

def Outcome.values : Outcome → List Value
  | .returning v => [v]
  | .normal | .breaking | .continuing => []

/-- A thrown value. -/
def Stop.values : Stop → List Value
  | .raised v _ => [v]
  | .fault _ | .malformed _ | .overflow _ | .badIndex | .exhausted => []

/-- The values that result at a moment, by a normal end or a `throw`. -/
def Moment.values : Moment → List Value
  | .began | .evaluating _ | .executing _ => []
  | .evaluated _ (.ok v) => [v]
  | .executed _ (.ok outcome) | .ended (.ok outcome) => outcome.values
  | .evaluated _ (.error stop) | .executed _ (.error stop) | .ended (.error stop) => stop.values

/-- The values of the local variables. -/
def Frame.values (f : Frame) : List Value :=
  (f.scope.map Bindings.values).getD []

theorem Frame.values_eq {f : Frame} {scope : Scope} (h : f.scope = some scope) :
    f.values = scope.values :=
  congrArg (fun s : Option Scope => (s.map Bindings.values).getD []) h

/-- The values that a context holds: of globals, of the active scope and of fields, and the object
whose code is running. -/
def Context.values (c : Context) : List Value :=
  c.globals.values ++ (c.frame.values ++
    ((c.frame.self.map Value.object).toList ++ c.heap.toList.flatMap Bindings.values))

/-- A value is held at an event, by itself or inside a list. -/
def Event.Holds (ev : Event) (v : Value) : Prop :=
  ∃ u ∈ ev.moment.values ++ ev.context.values, v.Part u

/-- Members stand under their own names, and their code binds no keyword. -/
def ClassDef.Declared (c : ClassDef) : Prop :=
  c.members.Distinct ∧ ∀ p ∈ c.members.entries, p.2.name = p.1 ∧ p.2.BindsNames

namespace ClassDef.Declared

variable {c : ClassDef}

theorem ofMembers (name : String) (base : Option Nat) (interfaces : List String)
    {members : List Member} (h : ∀ m ∈ members, m.BindsNames) :
    (ClassDef.ofMembers name base interfaces members).Declared := by
  obtain ⟨hdistinct, hsub⟩ := Bindings.ofList_spec (members.map fun m => (m.name, m))
  refine ⟨hdistinct, fun p hp => ?_⟩
  obtain ⟨m, hm, rfl⟩ := List.mem_map.mp (hsub p hp)
  exact ⟨rfl, h m hm⟩

theorem of_get? (h : c.Declared) {x : String} {m : Member} (hm : c.members.get? x = some m) :
    m.name = x ∧ m.BindsNames :=
  h.2 (x, m) (Bindings.mem_of_find hm)

theorem get?_name (h : c.Declared) {m : Member} (hm : m ∈ c.members.values) :
    c.members.get? m.name = some m := by
  obtain ⟨p, hp, rfl⟩ := List.mem_map.mp hm
  rw [(h.2 p hp).1]
  exact h.1.get?_of_mem hp

end ClassDef.Declared

/-- What there is: the classes, the objects by their ids, and the fields assigned so far. -/
structure World where
  classes : ClassTable
  objects : List Instance
  assigned : Nat → String → Prop
  wellFormed : classes.WellFormed
  declared : ∀ (i : Nat) (c : ClassDef), classes.classes[i]? = some c → c.Declared
  placed : ∀ (i : Nat) (o : Instance), objects[i]? = some o → o.id = i
  named : ∀ o ∈ objects, ∃ c, classes.classes[o.classIndex]? = some c ∧ c.name = o.className
  fields : ∀ i x, assigned i x →
    ∃ o, objects[i]? = some o ∧ classes.Resolves Member.isField o.classIndex x

namespace World

variable {w u v : World}

/-- Nothing has been defined or made. -/
def empty : World where
  classes := .empty
  objects := []
  assigned _ _ := False
  wellFormed := .empty
  declared i c h := by simp [ClassTable.empty] at h
  placed i o h := by simp at h
  named o h := by cases h
  fields i x h := h.elim

/-- `u` comes after `w`. -/
structure Grows (w u : World) : Prop where
  classes : w.classes.Extends u.classes
  objects : w.objects <+: u.objects
  assigned : ∀ i x, w.assigned i x → u.assigned i x

theorem Grows.refl (w : World) : w.Grows w :=
  ⟨.refl _, List.prefix_refl _, fun _ _ h => h⟩

theorem Grows.trans (first : w.Grows u) (second : u.Grows v) : w.Grows v :=
  ⟨first.classes.trans second.classes, first.objects.trans second.objects,
    fun i x h => second.assigned i x (first.assigned i x h)⟩

theorem Grows.mem (h : w.Grows u) {o : Instance} (ho : o ∈ w.objects) : o ∈ u.objects :=
  h.objects.subset ho

theorem Grows.lt_size (h : w.Grows u) {i : Nat} (hi : i < w.classes.size) : i < u.classes.size :=
  ClassTable.WellFormed.lt_size_of_extends h.classes hi

theorem Grows.resolves (h : w.Grows u) {sort : Member → Bool} {i : Nat} {x : String}
    (hx : w.classes.Resolves sort i x) : u.classes.Resolves sort i x :=
  w.wellFormed.resolves_of_extends u.wellFormed h.classes hx

theorem getElem?_id {o : Instance} (ho : o ∈ w.objects) : w.objects[o.id]? = some o := by
  obtain ⟨i, hi⟩ := List.mem_iff_getElem?.mp ho
  rw [w.placed i o hi]
  exact hi

theorem classIndex_lt {o : Instance} (ho : o ∈ w.objects) : o.classIndex < w.classes.size := by
  obtain ⟨c, hc, _⟩ := w.named o ho
  exact ClassTable.lt_size hc

/-- Every field that the class of the object declares or inherits has been assigned. -/
def Complete (w : World) (o : Instance) : Prop :=
  ∀ x, w.classes.Resolves Member.isField o.classIndex x → w.assigned o.id x

theorem Complete.mono {o : Instance} (hc : w.Complete o) (ho : o ∈ w.objects) (h : w.Grows u) :
    u.Complete o := by
  intro x hx
  refine h.assigned o.id x (hc x ?_)
  exact (w.wellFormed.resolves_extends_iff u.wellFormed h.classes (classIndex_lt ho)).mp hx

/-- The world with a later class table. -/
def withClasses (w : World) (t : ClassTable) (ht : t.WellFormed) (ext : w.classes.Extends t)
    (hd : ∀ (i : Nat) (c : ClassDef), t.classes[i]? = some c → c.Declared) : World where
  classes := t
  objects := w.objects
  assigned := w.assigned
  wellFormed := ht
  declared := hd
  placed := w.placed
  named o ho := by
    obtain ⟨c, hc, hname⟩ := w.named o ho
    exact ⟨c, ext _ c hc, hname⟩
  fields i x h := by
    obtain ⟨o, ho, hx⟩ := w.fields i x h
    exact ⟨o, ho, w.wellFormed.resolves_of_extends ht ext hx⟩

theorem grows_withClasses (w : World) (t : ClassTable) (ht : t.WellFormed)
    (ext : w.classes.Extends t)
    (hd : ∀ (i : Nat) (c : ClassDef), t.classes[i]? = some c → c.Declared) :
    w.Grows (w.withClasses t ht ext hd) :=
  ⟨ext, List.prefix_refl _, fun _ _ h => h⟩

/-- The world with one more object. -/
def allocating (w : World) (i : Nat) (c : ClassDef) (hc : w.classes.classes[i]? = some c) :
    World where
  classes := w.classes
  objects := w.objects ++ [⟨w.objects.length, i, c.name⟩]
  assigned := w.assigned
  wellFormed := w.wellFormed
  declared := w.declared
  placed j o h := by
    rcases Nat.lt_or_ge j w.objects.length with hj | hj
    · rw [List.getElem?_append_left hj] at h
      exact w.placed j o h
    · rw [List.getElem?_append_right hj, List.getElem?_singleton] at h
      split at h
      · cases h
        dsimp only
        omega
      · cases h
  named o ho := by
    rcases List.mem_append.mp ho with ho | ho
    · exact w.named o ho
    · cases List.mem_singleton.mp ho
      exact ⟨c, hc, rfl⟩
  fields j x h := by
    obtain ⟨o, ho, hx⟩ := w.fields j x h
    have hj : j < w.objects.length := (List.getElem?_eq_some_iff.mp ho).1
    exact ⟨o, by rw [List.getElem?_append_left hj]; exact ho, hx⟩

theorem grows_allocating (w : World) (i : Nat) (c : ClassDef)
    (hc : w.classes.classes[i]? = some c) : w.Grows (w.allocating i c hc) :=
  ⟨.refl _, List.prefix_append _ _, fun _ _ h => h⟩

/-- The world with one more assigned field. -/
def assigning (w : World) (o : Instance) (x : String) (ho : o ∈ w.objects)
    (hx : w.classes.Resolves Member.isField o.classIndex x) : World where
  classes := w.classes
  objects := w.objects
  assigned j y := w.assigned j y ∨ (j = o.id ∧ y = x)
  wellFormed := w.wellFormed
  declared := w.declared
  placed := w.placed
  named := w.named
  fields j y h := by
    rcases h with h | ⟨rfl, rfl⟩
    · exact w.fields j y h
    · exact ⟨o, getElem?_id ho, hx⟩

theorem grows_assigning (w : World) (o : Instance) (x : String) (ho : o ∈ w.objects)
    (hx : w.classes.Resolves Member.isField o.classIndex x) : w.Grows (w.assigning o x ho hx) :=
  ⟨.refl _, List.prefix_refl _, fun _ _ h => Or.inl h⟩

end World

/-- Every object in the value is one of the world, and every bound method a method of its object. -/
structure Value.Sound (w : World) (v : Value) : Prop where
  object : ∀ o, (Value.object o).Part v → o ∈ w.objects
  method : ∀ id o name, (Value.method id o name).Part v →
    o ∈ w.objects ∧ w.classes.Resolves Member.isMethod o.classIndex name

namespace Value.Sound

variable {w u : World} {v : Value}

theorem mono (h : v.Sound w) (grows : w.Grows u) : v.Sound u where
  object o ho := grows.mem (h.object o ho)
  method id o name ho :=
    have hm := h.method id o name ho
    ⟨grows.mem hm.1, grows.resolves hm.2⟩

theorem ofObject {o : Instance} (ho : o ∈ w.objects) : (Value.object o).Sound w where
  object o' h := by cases h; exact ho
  method id o' name h := by cases h

theorem ofMethod {id : Nat} {o : Instance} {name : String} (ho : o ∈ w.objects)
    (hm : w.classes.Resolves Member.isMethod o.classIndex name) :
    (Value.method id o name).Sound w where
  object o' h := by cases h
  method id' o' name' h := by cases h; exact ⟨ho, hm⟩

theorem null : Value.null.Sound w := ⟨by rintro _ ⟨⟩, by rintro _ _ _ ⟨⟩⟩
theorem boolean (b : Bool) : (Value.boolean b).Sound w := ⟨by rintro _ ⟨⟩, by rintro _ _ _ ⟨⟩⟩
theorem number (x : Float) : (Value.number x).Sound w := ⟨by rintro _ ⟨⟩, by rintro _ _ _ ⟨⟩⟩
theorem text (s : String) : (Value.text s).Sound w := ⟨by rintro _ ⟨⟩, by rintro _ _ _ ⟨⟩⟩

theorem list {items : List Value} (id : Nat) (h : ∀ v ∈ items, v.Sound w) :
    (Value.list id items).Sound w := by
  constructor
  · rintro o (_ | ⟨hv, hpart⟩)
    exact (h _ hv).object o hpart
  · rintro id o name (_ | ⟨hv, hpart⟩)
    exact (h _ hv).method id o name hpart

end Value.Sound

/-- Receiver and owner of the running code go together: the owner is on the chain of the receiver's
class and the scope binds `this` to the receiver, or there is neither and `this` is not a local
variable. -/
structure Frame.Coherent (t : ClassTable) (f : Frame) : Prop where
  paired : f.self = none ↔ f.owner = none
  owner : ∀ o i, f.self = some o → f.owner = some i →
    ∃ chain, t.chain? o.classIndex = some chain ∧ i ∈ chain
  inside : ∀ o, f.self = some o →
    ∃ scope, f.scope = some scope ∧ scope.get? "this" = some (.object o)
  outside : f.self = none → ∀ scope, f.scope = some scope → scope.get? "this" = none

structure Frame.Sound (w : World) (f : Frame) : Prop where
  coherent : f.Coherent w.classes
  values : ∀ v ∈ f.values, v.Sound w
  self : ∀ o, f.self = some o → o ∈ w.objects

namespace Frame.Sound

variable {w u : World} {f : Frame}

theorem mono (h : f.Sound w) (grows : w.Grows u) : f.Sound u where
  coherent :=
    { h.coherent with
      owner := by
        intro o i ho hi
        obtain ⟨chain, hchain, hmem⟩ := h.coherent.owner o i ho hi
        refine ⟨chain, ?_, hmem⟩
        rw [w.wellFormed.chain?_of_extends grows.classes (World.classIndex_lt (h.self o ho))]
        exact hchain }
  values v hv := (h.values v hv).mono grows
  self o ho := grows.mem (h.self o ho)

theorem this_ne : "this" ∈ Rule.keywords := by decide

/-- A name that a program binds is not `this`. -/
theorem ne_this {names : List String} (h : Unreserved names) {x : String} (hx : x ∈ names) :
    x ≠ "this" := by
  rintro rfl
  exact h _ hx this_ne

/-- An assignment to a local variable other than `this`. -/
theorem insert {scope : Scope} (h : f.Sound w) (hs : f.scope = some scope) {x : String}
    (hx : x ≠ "this") {v : Value} (hv : v.Sound w) :
    Frame.Sound w { f with scope := some (scope.insert x v) } := by
  have hthis : (scope.insert x v).get? "this" = scope.get? "this" :=
    Bindings.get?_insert_of_ne scope v hx
  refine ⟨⟨h.coherent.paired, h.coherent.owner, ?_, ?_⟩, ?_, h.self⟩
  · intro o ho
    obtain ⟨scope', hs', hget⟩ := h.coherent.inside o ho
    cases hs.symm.trans hs'
    exact ⟨_, rfl, hthis.trans hget⟩
  · rintro hself _ ⟨⟩
    exact hthis.trans (h.coherent.outside hself scope hs)
  · intro a ha
    rcases Bindings.mem_values_insert ha with rfl | ha
    · exact hv
    · exact h.values a (Frame.values_eq hs ▸ ha)

/-- The stacks have nothing to do with it. -/
theorem resuming (h : f.Sound w) (g : Frame) : (g.resuming f).Sound w :=
  ⟨⟨h.coherent.paired, h.coherent.owner, h.coherent.inside, h.coherent.outside⟩, h.values, h.self⟩

/-- Outside of every call and every object. -/
theorem outside {f : Frame} (hscope : f.scope = none) (hself : f.self = none)
    (howner : f.owner = none) : f.Sound w where
  coherent :=
    { paired := by simp [hself, howner]
      owner := by rw [hself]; rintro o i ⟨⟩
      inside := by rw [hself]; rintro o ⟨⟩
      outside := by rw [hscope]; rintro _ scope ⟨⟩ }
  values v hv := by
    have hnil : f.values = [] :=
      congrArg (fun s : Option Scope => (s.map Bindings.values).getD []) hscope
    rw [hnil] at hv
    cases hv
  self := by rw [hself]; rintro o ⟨⟩

end Frame.Sound

/-- An object of the world and a class on its chain. -/
def Receiver.Sound (w : World) (r : Receiver) : Prop :=
  r.self ∈ w.objects ∧ ∃ chain, w.classes.chain? r.self.classIndex = some chain ∧ r.owner ∈ chain

theorem Receiver.Sound.mono {w u : World} {r : Receiver} (h : r.Sound w) (grows : w.Grows u) :
    r.Sound u := by
  obtain ⟨hself, chain, hchain, howner⟩ := h
  refine ⟨grows.mem hself, chain, ?_, howner⟩
  rw [w.wellFormed.chain?_of_extends grows.classes (World.classIndex_lt hself)]
  exact hchain

/-- The frame of a call: its parameters are not called `this`, so `this` is the receiver. -/
theorem Frame.sound_calling {w : World} {params : List String} (hparams : Unreserved params)
    {args : List Value} (hargs : ∀ v ∈ args, v.Sound w) {receiver : Option Receiver}
    (hreceiver : ∀ r ∈ receiver, r.Sound w) (f : Frame) (label : String) :
    (f.calling label (callScope params args receiver) receiver).Sound w := by
  have hbound : ∀ v ∈ (Bindings.ofList (params.zip args)).values, v.Sound w := by
    intro v hv
    obtain ⟨p, hp, rfl⟩ := List.mem_map.mp hv
    exact hargs _ (List.of_mem_zip ((Bindings.ofList_spec _).2 p hp)).2
  cases receiver with
  | none =>
    refine ⟨⟨by simp [Frame.calling], by rintro o i ⟨⟩, by rintro o ⟨⟩, ?_⟩, hbound, by rintro o ⟨⟩⟩
    rintro - _ ⟨⟩
    cases hget : (callScope params args none).get? "this" with
    | none => rfl
    | some v =>
      have hmem := (List.of_mem_zip (Bindings.mem_of_get?_ofList hget)).1
      exact absurd rfl (Frame.Sound.ne_this hparams hmem)
  | some r =>
    obtain ⟨hself, hchain⟩ := hreceiver r rfl
    refine ⟨⟨by simp [Frame.calling], ?_, ?_, ?_⟩, ?_, ?_⟩
    · rintro o i ⟨⟩ ⟨⟩
      exact hchain
    · rintro o ⟨⟩
      exact ⟨_, rfl, Bindings.get?_insert_self _ _ _⟩
    · rintro ⟨⟩
    · intro v hv
      rcases Bindings.mem_values_insert hv with rfl | hv
      · exact .ofObject hself
      · exact hbound v hv
    · rintro o ⟨⟩
      exact hself

/-- The frame of an object that is being initialized. -/
theorem Frame.sound_initializing {w : World} {o : Instance} (ho : o ∈ w.objects) (f : Frame) :
    (f.initializing o).Sound w := by
  refine ⟨⟨by simp [Frame.initializing], ?_, ?_, ?_⟩, ?_, ?_⟩
  · rintro _ _ ⟨⟩ ⟨⟩
    obtain ⟨rest, hchain, _⟩ := w.wellFormed.chain?_spec (World.classIndex_lt ho)
    exact ⟨_, hchain, List.mem_cons_self⟩
  · rintro _ ⟨⟩
    exact ⟨_, rfl, Bindings.get?_insert_self _ _ _⟩
  · rintro ⟨⟩
  · intro v hv
    rcases Bindings.mem_values_insert hv with rfl | hv
    · exact .ofObject ho
    · cases hv
  · rintro _ ⟨⟩
    exact ho

/-- Another class of the receiver's chain may own the running code. -/
theorem Frame.Sound.withOwner {w : World} {f : Frame} (h : f.Sound w) {r : Receiver}
    (hr : r.Sound w) (hself : f.self = some r.self) :
    Frame.Sound w { f with owner := some r.owner } := by
  refine ⟨⟨by simp [hself], ?_, h.coherent.inside, h.coherent.outside⟩, h.values, h.self⟩
  rintro o i ho ⟨⟩
  cases hself.symm.trans ho
  exact hr.2

/-- All that a context holds is sound in the world, its code binds no keyword, and its heap has the
fields that the world says are assigned. -/
structure Context.Fits (c : Context) (w : World) : Prop where
  classes : c.classes = w.classes
  size : c.heap.size = w.objects.length
  assigned : ∀ i x, w.assigned i x ↔
    ∃ fields : Scope, c.heap[i]? = some fields ∧ x ∈ fields.keys
  heap : ∀ (i : Nat) (fields : Scope), c.heap[i]? = some fields → ∀ v ∈ fields.values, v.Sound w
  globals : ∀ v ∈ c.globals.values, v.Sound w
  noGlobalThis : c.globals.get? "this" = none
  functions : ∀ f ∈ c.functions.values, f.BindsNames
  frame : c.frame.Sound w

namespace Context.Fits

variable {c : Context} {w u : World}

/-- Nothing else in the context matters. -/
theorem recast (h : c.Fits w) (interfaces : Bindings String (List Signature)) (nextId : Nat)
    (input : List Char) (output : String) (log : List String) :
    Context.Fits { c with interfaces, nextId, input, output, log } w :=
  ⟨h.classes, h.size, h.assigned, h.heap, h.globals, h.noGlobalThis, h.functions, h.frame⟩

theorem withFrame (h : c.Fits w) {f : Frame} (hf : f.Sound w) :
    Context.Fits { c with frame := f } w :=
  ⟨h.classes, h.size, h.assigned, h.heap, h.globals, h.noGlobalThis, h.functions, hf⟩

theorem withGlobal (h : c.Fits w) {x : String} (hx : x ≠ "this") {v : Value} (hv : v.Sound w) :
    Context.Fits { c with globals := c.globals.insert x v } w := by
  refine ⟨h.classes, h.size, h.assigned, h.heap, ?_, ?_, h.functions, h.frame⟩
  · intro a ha
    rcases Bindings.mem_values_insert ha with rfl | ha
    · exact hv
    · exact h.globals a ha
  · exact (Bindings.get?_insert_of_ne _ _ hx).trans h.noGlobalThis

theorem withFunction (h : c.Fits w) (name : String) {f : Function} (hf : f.BindsNames) :
    Context.Fits { c with functions := c.functions.insert name f } w := by
  refine ⟨h.classes, h.size, h.assigned, h.heap, h.globals, h.noGlobalThis, ?_, h.frame⟩
  intro g hg
  rcases Bindings.mem_values_insert hg with rfl | hg
  · exact hf
  · exact h.functions g hg

theorem withClasses (h : c.Fits w) {t : ClassTable} (ht : t.WellFormed)
    (ext : w.classes.Extends t)
    (hd : ∀ (i : Nat) (c : ClassDef), t.classes[i]? = some c → c.Declared) :
    Context.Fits { c with classes := t } (w.withClasses t ht ext hd) := by
  have grows := w.grows_withClasses t ht ext hd
  exact ⟨rfl, h.size, h.assigned, fun i fields hi v hv => (h.heap i fields hi v hv).mono grows,
    fun v hv => (h.globals v hv).mono grows, h.noGlobalThis, h.functions, h.frame.mono grows⟩

theorem allocating (h : c.Fits w) {i : Nat} {d : ClassDef} (hd : w.classes.classes[i]? = some d) :
    Context.Fits { c with heap := c.heap.push {} } (w.allocating i d hd) := by
  have grows := w.grows_allocating i d hd
  have pushed {j : Nat} {fields : Scope} (hj : (c.heap.push {})[j]? = some fields) :
      c.heap[j]? = some fields ∨ fields = {} := by
    rw [Array.getElem?_push] at hj
    split at hj
    · exact Or.inr (Option.some.inj hj).symm
    · exact Or.inl hj
  refine ⟨h.classes, by simp [World.allocating, h.size], ?_, ?_,
    fun v hv => (h.globals v hv).mono grows, h.noGlobalThis, h.functions, h.frame.mono grows⟩
  · intro j x
    rw [show (w.allocating i d hd).assigned j x ↔ w.assigned j x from Iff.rfl, h.assigned j x]
    constructor
    · rintro ⟨fields, hj, hx⟩
      have hlt : j < c.heap.size := (Array.getElem?_eq_some_iff.mp hj).1
      refine ⟨fields, ?_, hx⟩
      rw [Array.getElem?_push, if_neg (by omega)]
      exact hj
    · rintro ⟨fields, hj, hx⟩
      rcases pushed hj with hj | rfl
      · exact ⟨fields, hj, hx⟩
      · cases hx
  · intro j fields hj v hv
    rcases pushed hj with hj | rfl
    · exact (h.heap j fields hj v hv).mono grows
    · cases hv

theorem assigning (h : c.Fits w) {o : Instance} {x : String} (ho : o ∈ w.objects)
    (hx : w.classes.Resolves Member.isField o.classIndex x) {v : Value} (hv : v.Sound w) :
    Context.Fits { c with heap := c.heap.modify o.id fun fields => fields.insert x v }
      (w.assigning o x ho hx) := by
  have grows := w.grows_assigning o x ho hx
  have hlt : o.id < c.heap.size := by
    rw [h.size]
    exact (List.getElem?_eq_some_iff.mp (World.getElem?_id ho)).1
  refine ⟨h.classes, by simp [World.assigning, h.size], ?_, ?_,
    fun v hv => (h.globals v hv).mono grows, h.noGlobalThis, h.functions, h.frame.mono grows⟩
  · intro j y
    have step : (w.assigning o x ho hx).assigned j y ↔ w.assigned j y ∨ (j = o.id ∧ y = x) :=
      Iff.rfl
    rw [step, h.assigned j y]
    simp only [Array.getElem?_modify]
    by_cases hj : o.id = j
    · subst hj
      simp [Array.getElem?_eq_getElem hlt, Bindings.mem_keys_insert, or_comm]
    · simp [hj, Ne.symm hj]
  · intro j fields hj a ha
    rw [Array.getElem?_modify] at hj
    split at hj
    · obtain ⟨old, hold, rfl⟩ := Option.map_eq_some_iff.mp hj
      rcases Bindings.mem_values_insert ha with rfl | ha
      · exact hv.mono grows
      · exact (h.heap j old hold a ha).mono grows
    · exact (h.heap j fields hj a ha).mono grows

/-- Every held value is sound. -/
theorem values (h : c.Fits w) : ∀ v ∈ c.values, v.Sound w := by
  intro v hv
  rcases List.mem_append.mp hv with hv | hv
  · exact h.globals v hv
  rcases List.mem_append.mp hv with hv | hv
  · exact h.frame.values v hv
  rcases List.mem_append.mp hv with hv | hv
  · obtain ⟨o, ho, rfl⟩ := Option.map_eq_some_iff.mp (Option.mem_toList.mp hv)
    exact .ofObject (h.frame.self o ho)
  · obtain ⟨fields, hfields, hv⟩ := List.mem_flatMap.mp hv
    obtain ⟨i, hi⟩ := List.mem_iff_getElem?.mp hfields
    exact h.heap i fields (by simpa using hi) v hv

/-- The keys of the fields of an object are what the world says is assigned. -/
theorem mem_keys_iff (h : c.Fits w) (o : Instance) (x : String) :
    x ∈ (c.fieldsOf o).keys ↔ w.assigned o.id x := by
  rw [h.assigned]
  change x ∈ (c.heap[o.id]?.getD {}).keys ↔ _
  cases c.heap[o.id]? with
  | none => simp [Bindings.keys, EmptyCollection.emptyCollection, Bindings.empty]
  | some fields => simp

end Context.Fits

end ClassScript
