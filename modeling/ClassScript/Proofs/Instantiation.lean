import ClassScript.Eval
import ClassScript.Proofs.Dispatch

/-!
# What a new object starts with

`new` goes along the chain of its class from the root down and writes the fields of each class in
the order of its members, so of several fields with one name the most derived is written last. A
member name is resolved from the other end: the first field from the derived end is taken, and
methods count only when there is none. When no initializer needs evaluation, the two agree.

Initializers that run code are not covered: they may read fields that are not written yet, and
write others.
-/

namespace ClassScript

/-- The value of an expression that is written as its value. -/
def Expr.literal? : Expr → Option Value
  | .number x _ => some (.number x)
  | .text s _ => some (.text s)
  | .boolean b _ => some (.boolean b)
  | .null _ => some .null
  | _ => none

/-- What a field starts with: the value of its initializer, `null` when it has none. Methods and
fields whose initializer is no literal have no such value. -/
def Member.initial? : Member → Option Value
  | .field _ _ none _ => some .null
  | .field _ _ (some e) _ => e.literal?
  | .method .. => none

/-- The members of the class come from a list, each under its own name. -/
def ClassDef.Listed (d : ClassDef) : Prop :=
  ∃ members : List Member, d.members = Bindings.ofList (members.map fun m => (m.name, m))

theorem ClassDef.listed_ofMembers (name : String) (base : Option Nat) (interfaces : List String)
    (members : List Member) : (ClassDef.ofMembers name base interfaces members).Listed :=
  ⟨members, rfl⟩

/-- Every initializer of a field is a literal or absent. -/
def ClassDef.Plain (d : ClassDef) : Prop :=
  ∀ m ∈ d.fields, m.initial?.isSome = true

/-- What the fields of a class start with, by name and in order. -/
def ClassDef.initials (d : ClassDef) : List (String × Value) :=
  d.members.values.filterMap fun m => m.initial?.map (m.name, ·)

namespace ClassTable

/-- What the fields of the listed classes start with, class by class. -/
def initials (t : ClassTable) (chain : List Nat) : List (String × Value) :=
  chain.flatMap fun i => (t.classes[i]?.map ClassDef.initials).getD []

/-- The names of the fields of the listed classes, class by class. -/
def fieldNames (t : ClassTable) (chain : List Nat) : List String :=
  chain.flatMap fun i => (t.classes[i]?.map ClassDef.fieldNames).getD []

end ClassTable

namespace ClassDef

variable {d : ClassDef}

theorem Listed.distinct (h : d.Listed) : d.members.Distinct := by
  obtain ⟨members, hmembers⟩ := h
  rw [hmembers]
  exact (Bindings.ofList_spec _).1

theorem Listed.name_eq (h : d.Listed) : ∀ p ∈ d.members.entries, p.2.name = p.1 := by
  obtain ⟨members, hmembers⟩ := h
  intro p hp
  rw [hmembers] at hp
  obtain ⟨m, _, rfl⟩ := List.mem_map.mp ((Bindings.ofList_spec _).2 p hp)
  rfl

theorem Listed.initials_eq (h : d.Listed) :
    d.initials = d.members.entries.filterMap fun p => p.2.initial?.map (p.1, ·) := by
  rw [initials, Bindings.values, List.filterMap_map]
  refine List.filterMap_congr fun p hp => ?_
  rw [Function.comp_apply, h.name_eq p hp]

/-- The fields that start with a value are all fields, in the order of the members. -/
theorem Plain.map_initials (h : d.Plain) : d.initials.map Prod.fst = d.fieldNames := by
  have same (ms : List Member)
      (hms : ∀ m ∈ ms.filter Member.isField, m.initial?.isSome = true) :
      (ms.filterMap fun m => m.initial?.map (m.name, ·)).map Prod.fst =
        (ms.filter Member.isField).map Member.name := by
    induction ms with
    | nil => rfl
    | cons m ms ih =>
      cases m with
      | method x a ps b v o l =>
        exact ih hms
      | field x a e l =>
        have rest := ih fun m hm => hms m (List.mem_cons_of_mem _ hm)
        obtain ⟨v, hv⟩ := Option.isSome_iff_exists.mp (hms (.field x a e l) List.mem_cons_self)
        rw [List.filterMap_cons, hv, Option.map_some, List.map_cons, rest]
        rfl
  exact same d.members.values h

theorem Listed.names_eq (h : d.Listed) : d.members.values.map Member.name = d.members.keys := by
  rw [Bindings.values, List.map_map, Bindings.keys]
  exact List.map_congr_left h.name_eq

theorem Listed.nodup_fieldNames (h : d.Listed) : d.fieldNames.Nodup := by
  have sub : d.fieldNames.Sublist (d.members.values.map Member.name) :=
    List.filter_sublist.map Member.name
  rw [h.names_eq] at sub
  exact h.distinct.sublist sub

/-- A name that is a field starts with the value of that field. -/
theorem Listed.find_initials (h : d.Listed) (x : String) :
    Bindings.find x d.initials = (d.members.get? x).bind Member.initial? := by
  have search (l : List (String × Member)) (hl : (l.map Prod.fst).Nodup) :
      Bindings.find x (l.filterMap fun p => p.2.initial?.map (p.1, ·)) =
        (Bindings.find x l).bind Member.initial? := by
    induction l with
    | nil => rfl
    | cons p l ih =>
      obtain ⟨k, m⟩ := p
      obtain ⟨hk, hrest⟩ := List.nodup_cons.mp hl
      rw [List.filterMap_cons, Bindings.find]
      by_cases hx : k = x
      · subst hx
        rw [if_pos rfl, Option.bind_some]
        cases hv : m.initial? with
        | some v => simp [Bindings.find]
        | none =>
          have absent : Bindings.find k l = none := by
            cases hfind : Bindings.find k l with
            | none => rfl
            | some m' => exact absurd (List.mem_map.mpr ⟨_, Bindings.mem_of_find hfind, rfl⟩) hk
          rw [Option.map_none]
          dsimp only
          rw [ih hrest, absent]
          rfl
      · rw [if_neg hx, ← ih hrest]
        cases m.initial? with
        | some v => simp [Bindings.find, hx]
        | none => rfl
  rw [h.initials_eq]
  exact search d.members.entries h.distinct

end ClassDef

namespace ClassTable

variable {t : ClassTable} {chain : List Nat}

/-- The classes of a chain are in the table, and their fields start with literals. -/
def PlainChain (t : ClassTable) (chain : List Nat) : Prop :=
  ∀ i ∈ chain, ∃ d, t.classes[i]? = some d ∧ d.Listed ∧ d.Plain

theorem PlainChain.tail {i : Nat} (h : t.PlainChain (i :: chain)) : t.PlainChain chain :=
  fun j hj => h j (List.mem_cons_of_mem i hj)

theorem PlainChain.reverse (h : t.PlainChain chain) : t.PlainChain chain.reverse :=
  fun j hj => h j (List.mem_reverse.mp hj)

theorem initials_cons {i : Nat} {d : ClassDef} (hd : t.classes[i]? = some d) :
    t.initials (i :: chain) = d.initials ++ t.initials chain := by
  rw [initials, List.flatMap_cons, hd]
  rfl

theorem fieldNames_cons {i : Nat} {d : ClassDef} (hd : t.classes[i]? = some d) :
    t.fieldNames (i :: chain) = d.fieldNames ++ t.fieldNames chain := by
  rw [fieldNames, List.flatMap_cons, hd]
  rfl

theorem PlainChain.map_initials (h : t.PlainChain chain) :
    (t.initials chain).map Prod.fst = t.fieldNames chain := by
  induction chain with
  | nil => rfl
  | cons i chain ih =>
    obtain ⟨d, hd, _, plain⟩ := h i List.mem_cons_self
    rw [initials_cons hd, fieldNames_cons hd, List.map_append, plain.map_initials, ih h.tail]

theorem mem_fieldNames {x : String} :
    x ∈ t.fieldNames chain ↔ ∃ i ∈ chain, ∃ d, t.classes[i]? = some d ∧ x ∈ d.fieldNames := by
  rw [fieldNames, List.mem_flatMap]
  refine exists_congr fun i => and_congr_right fun _ => ?_
  cases t.classes[i]? <;> simp

/-- The last value written from the root down is that of the nearest field from the other end. -/
theorem PlainChain.find_initials (h : t.PlainChain chain) (x : String) :
    Bindings.find x (t.initials chain.reverse).reverse =
      (t.nearest? Member.isField x chain).bind fun found => found.2.initial? := by
  rw [initials, List.reverse_flatMap, List.reverse_reverse]
  induction chain with
  | nil => rfl
  | cons i chain ih =>
    obtain ⟨d, hd, listed, plain⟩ := h i List.mem_cons_self
    have own : Bindings.find x d.initials.reverse = (d.members.get? x).bind Member.initial? := by
      rw [Bindings.find_reverse, listed.find_initials]
      rw [plain.map_initials]
      exact listed.nodup_fieldNames
    have member : t.member? i x = d.members.get? x := by rw [member?, hd]; rfl
    rw [List.flatMap_cons, Bindings.find_append, ih h.tail, nearest?_cons, member]
    simp only [Function.comp_apply, hd, Option.map_some, Option.getD_some, own]
    rcases hm : d.members.get? x with _ | m
    · rfl
    · cases m with
      | method => rfl
      | field y a e l =>
        have hmem : Member.field y a e l ∈ d.fields :=
          List.mem_filter.mpr ⟨Bindings.mem_values_of_get? hm, rfl⟩
        obtain ⟨v, hv⟩ := Option.isSome_iff_exists.mp (plain _ hmem)
        simp [Option.filter, Member.isField, hv]

/-- A field that has been written is what its name means. -/
theorem resolveOn_of_nearest {x : String} {owner : Nat} {m : Member}
    (h : t.nearest? Member.isField x chain = some (owner, m)) :
    t.resolveOn chain x = .found owner m := by
  rw [resolveOn, h]
  rfl

end ClassTable

/-- Literals are evaluated to their values. -/
def Evaluators.ReadsLiterals (k : Evaluators) : Prop :=
  ∀ e v c, e.literal? = some v → k.eval e c = (.ok v, c)

theorem readsLiterals_evaluators (env : Environment) (n : Nat) :
    (evaluators env (n + 1)).ReadsLiterals := by
  intro e v c h
  cases e with
  | number | text | boolean | null => cases h; rfl
  | _ => cases h

/-- Binds the pairs in order, over what is bound already. -/
def Scope.writeAll (fields : Scope) (pairs : List (String × Value)) : Scope :=
  pairs.foldl (fun b p => b.insert p.1 p.2) fields

theorem Scope.writeAll_append (fields : Scope) (pairs pairs' : List (String × Value)) :
    fields.writeAll (pairs ++ pairs') = (fields.writeAll pairs).writeAll pairs' :=
  List.foldl_append

section

variable {k : Evaluators} (hk : k.ReadsLiterals) {self : Instance} {heap : Array Scope}
  (hid : self.id = heap.size)
include hid

theorem writeField_apply {c : Context} {fields : Scope} (hc : c.heap = heap.push fields)
    (x : String) (v : Value) :
    Run.writeField self x v c = (.ok (), { c with heap := heap.push (fields.insert x v) }) := by
  have written : c.heap.modify self.id (fun fields => fields.insert x v) =
      heap.push (fields.insert x v) := by
    rw [hc, hid]
    refine Array.ext_getElem? fun i => ?_
    rw [Array.getElem?_modify, Array.getElem?_push, Array.getElem?_push]
    by_cases hi : heap.size = i
    · subst hi
      simp
    · simp [hi, Ne.symm hi]
  rw [Run.writeField, Run.modify_apply, written]

include hk

/-- The fields of one class are written in the order of its members. -/
theorem initializeFields_apply {c : Context} {fields : Scope} (hc : c.heap = heap.push fields)
    {ms : List Member} (hms : ∀ m ∈ ms.filter Member.isField, m.initial?.isSome = true) :
    initializeFields k self ms c =
      (.ok (), { c with
        heap := heap.push
          (fields.writeAll (ms.filterMap fun m => m.initial?.map (m.name, ·))) }) := by
  induction ms generalizing c fields with
  | nil =>
    have same : heap.push (fields.writeAll []) = c.heap := hc.symm
    rw [List.filterMap_nil, same]
    rfl
  | cons m ms ih =>
    cases m with
    | method x a ps b v o l => exact ih hc hms
    | field x a e l =>
      obtain ⟨v, hv⟩ := Option.isSome_iff_exists.mp (hms (.field x a e l) List.mem_cons_self)
      have rest := ih (c := { c with heap := heap.push (fields.insert x v) }) rfl
        fun m hm => hms m (List.mem_cons_of_mem _ hm)
      have step : initializeFields k self (.field x a e l :: ms) c =
          (do Run.writeField self x v; initializeFields k self ms) c := by
        cases e with
        | none => cases hv; rfl
        | some e =>
          have whole : k.eval e c = (.ok v, c) := hk e v c hv
          simp only [initializeFields, Run.bind_apply, whole]
      rw [step, Run.bind_apply, writeField_apply hid hc]
      dsimp only
      rw [rest, List.filterMap_cons, hv]
      rfl

/-- The classes are gone through in turn; only the owner of the running code changes besides. -/
theorem initializeClasses_apply {c : Context} {fields : Scope} (hc : c.heap = heap.push fields)
    {indices : List Nat} (plain : c.classes.PlainChain indices) :
    ∃ owner, initializeClasses k self indices c = (.ok (), { c with
      frame := { c.frame with owner }
      heap := heap.push (fields.writeAll (c.classes.initials indices)) }) := by
  induction indices generalizing c fields with
  | nil =>
    have same : heap.push (fields.writeAll (c.classes.initials [])) = c.heap := hc.symm
    rw [same]
    exact ⟨c.frame.owner, rfl⟩
  | cons i indices ih =>
    obtain ⟨d, hd, _, hplain⟩ := plain i List.mem_cons_self
    set c₁ : Context := { c with frame := { c.frame with owner := some i } } with hc₁
    set c₂ : Context := { c₁ with heap := heap.push (fields.writeAll d.initials) } with hc₂
    obtain ⟨owner, hrest⟩ := ih (c := c₂) rfl plain.tail
    have own : initializeFields k self d.members.values c₁ = (.ok (), c₂) :=
      initializeFields_apply (c := c₁) hk hid hc hplain
    have step : initializeClasses k self (i :: indices) c =
        (do initializeFields k self d.members.values; initializeClasses k self indices) c₁ := by
      have found : Run.classAt i c₁ = (.ok d, c₁) := by
        simp only [Run.classAt, Run.bind_apply, Run.get_apply, hc₁, hd, Run.pure_apply]
      rw [initializeClasses, Run.bind_apply, Run.modify_apply]
      dsimp only
      rw [← hc₁, Run.bind_apply, found]
    refine ⟨owner, ?_⟩
    rw [step, Run.bind_apply, own]
    dsimp only
    rw [hrest, ClassTable.initials_cons hd, Scope.writeAll_append]

end

/-- Making an object is to initialize it in a frame of its own, once there is room for it. -/
theorem instantiate_apply {c : Context} {className : String} {i : Nat}
    (hi : c.classes.index? className = some i) {d : ClassDef}
    (hd : c.classes.classes[i]? = some d) {chain : List Nat}
    (hchain : c.classes.chain? i = some chain) {env : Environment}
    (depth : c.frame.depth < env.callDepth) (k : Evaluators) (line : Nat) :
    ∃ log, instantiate env k className line c =
      (do Run.inFrame (fun frame => frame.initializing ⟨c.heap.size, i, d.name⟩)
            Frame.leavingObject (initializeClasses k ⟨c.heap.size, i, d.name⟩ chain.reverse)
          return Value.object ⟨c.heap.size, i, d.name⟩)
        { c with heap := c.heap.push {}, log := log } := by
  set made : Context := { c with heap := c.heap.push {} }
  obtain ⟨log, hlog⟩ := Run.debug_apply env
    (fun _ => "Creating new object of class '" ++ d.name ++ "'") made
  have allocated : Run.allocate i d.name c = (.ok ⟨c.heap.size, i, d.name⟩, made) := rfl
  have chained : Run.chain i { made with log } = (.ok chain, { made with log }) := by
    simp only [Run.chain, Run.bind_apply, Run.get_apply, made, hchain, Run.pure_apply]
  have shallow : ¬ env.callDepth ≤ c.frame.depth := by omega
  refine ⟨log, ?_⟩
  simp only [instantiate, Run.bind_apply, Run.get_apply, ClassTable.lookup, hi, Run.ofExceptAt,
    Run.pure_apply, checkDepth, shallow, if_false, Run.classAt, hd, allocated, hlog, chained]
  rfl

/-- Let the tables of members come from declarations, and let every field on the chain of a class
have a literal for its initializer, or none. Where calls are not nested too deep, `new` answers an
object of the class. Its fields are those declared on the chain and no others; each has the value
of the initializer of the member that its name means on the class, `null` without an initializer.
They have been assigned in the order of their declaration, those of the root class first, and a name
that is declared again keeps its place. -/
theorem new_agrees_with_resolution {c : Context} (wf : c.classes.WellFormed)
    (listed : ∀ (j : Nat) (d : ClassDef), c.classes.classes[j]? = some d → d.Listed)
    {className : String} {i : Nat} (hi : c.classes.index? className = some i) {chain : List Nat}
    (hchain : c.classes.chain? i = some chain)
    (plain : ∀ j ∈ chain, ∀ d : ClassDef, c.classes.classes[j]? = some d → d.Plain)
    {env : Environment} (depth : c.frame.depth < env.callDepth) (n line : Nat) :
    ∃ fields log,
      eval env (n + 2) (.new className line) c =
        (.ok (.object ⟨c.heap.size, i, className⟩),
          { c with heap := c.heap.push fields, log := log }) ∧
      (∀ x ∈ c.classes.fieldNames chain, ∃ owner m u v,
        c.classes.resolve? i x = some (.found owner m, u) ∧ m.initial? = some v ∧
          fields.get? x = some v) ∧
      (∀ x ∉ c.classes.fieldNames chain, fields.get? x = none) ∧
      fields.keys = (c.classes.fieldNames chain.reverse).eraseDups := by
  have plainChain : c.classes.PlainChain chain := by
    intro j hj
    obtain ⟨d, hd⟩ := ClassTable.exists_class (wf.mem_chain?_lt hchain hj)
    exact ⟨d, hd, listed j d hd, plain j hj d hd⟩
  obtain ⟨d, hd, rfl⟩ := (wf.index_iff className i).mp hi
  obtain ⟨log, hmade⟩ := instantiate_apply hi hd hchain depth (evaluators env (n + 1)) line
  set self : Instance := ⟨c.heap.size, i, d.name⟩
  set fields : Scope := Bindings.ofList (c.classes.initials chain.reverse) with hfields
  have keys : fields.keys = (c.classes.fieldNames chain.reverse).eraseDups := by
    rw [hfields, Bindings.keys_ofList, plainChain.reverse.map_initials]
  have values (x : String) : fields.get? x =
      (c.classes.nearest? Member.isField x chain).bind fun found => found.2.initial? := by
    rw [hfields, Bindings.get?_ofList, plainChain.find_initials]
  have declared (x : String) : x ∈ c.classes.fieldNames chain ↔ (fields.get? x).isSome = true := by
    rw [← Bindings.mem_keys_iff, keys, List.mem_eraseDups, ClassTable.mem_fieldNames,
      ClassTable.mem_fieldNames]
    simp only [List.mem_reverse]
  refine ⟨fields, log, ?_, fun x hx => ?_, fun x hx => ?_, keys⟩
  · set inner : Context := { c with
      frame := c.frame.initializing self, heap := c.heap.push {}, log := log }
    have hid : self.id = c.heap.size := rfl
    have hheap : inner.heap = c.heap.push {} := rfl
    have hplain : inner.classes.PlainChain chain.reverse := plainChain.reverse
    obtain ⟨owner, hinit⟩ :=
      initializeClasses_apply (readsLiterals_evaluators env n) hid hheap hplain
    rw [eval_succ, evalStep, hmade, Run.bind_apply, Run.inFrame, hinit]
    rfl
  · obtain ⟨v, hv⟩ := Option.isSome_iff_exists.mp ((declared x).mp hx)
    rw [values, Option.bind_eq_some_iff] at hv
    obtain ⟨⟨owner, m⟩, hnearest, hm⟩ := hv
    have hsearch : c.classes.search? i x = some (.found owner m) := by
      rw [ClassTable.search?, hchain, Option.map_some, ClassTable.resolveOn_of_nearest hnearest]
    obtain ⟨u, hu⟩ := wf.resolve?_complete hsearch
    refine ⟨owner, m, u, v, hu, hm, ?_⟩
    rw [values, hnearest]
    exact hm
  · have absent := mt (declared x).mpr hx
    simpa using absent

private def baseClass : ClassDef :=
  .ofMembers "A" none []
    [.field "x" .publicAccess (some (.text "a" 1)) 1,
      .method "m" .publicAccess [] (.mk [] 1) false false 1, .field "y" .publicAccess none 1]

private def derivedClass : ClassDef :=
  .ofMembers "B" (some 0) []
    [.field "m" .publicAccess (some (.boolean true 2)) 2,
      .method "x" .publicAccess [] (.mk [] 2) false false 2,
      .field "y" .publicAccess (some (.text "b" 2)) 2]

private def shadowing : ClassTable :=
  (ClassTable.empty.after (.define baseClass)).after (.define derivedClass)

private def oneCallDeep : Environment := ⟨.ofList "" [], none, 1, 1, false⟩

private theorem shadowing_wellFormed : shadowing.WellFormed := by
  refine (ClassTable.WellFormed.empty.of_reaches (.step _ (.step _ .refl ?_) ?_)).1
  · rintro b ⟨⟩
  · rintro b ⟨⟩
    decide

private theorem shadowing_classes {j : Nat} {d : ClassDef} (h : shadowing.classes[j]? = some d) :
    d = baseClass ∨ d = derivedClass := by
  have all : shadowing.classes = #[baseClass, derivedClass] := rfl
  have hmem : d ∈ shadowing.classes := Array.mem_of_getElem? h
  rw [all] at hmem
  simpa using hmem

/-- The derived class declares a field for a method of its base, a method for a field, and a field
again. -/
theorem new_agrees_with_resolution_shadowing :
    ∃ fields log, eval oneCallDeep 2 (.new "B" 3)
        { Context.initial "" with classes := shadowing } =
      (.ok (.object ⟨0, 1, "B"⟩),
        { Context.initial "" with classes := shadowing, heap := #[fields], log := log }) ∧
      fields.keys = ["x", "y", "m"] ∧ fields.get? "x" = some (.text "a") ∧
      fields.get? "y" = some (.text "b") ∧ fields.get? "m" = some (.boolean true) := by
  have listed (j : Nat) (d : ClassDef) (hd : shadowing.classes[j]? = some d) : d.Listed := by
    rcases shadowing_classes hd with rfl | rfl <;> exact ClassDef.listed_ofMembers _ _ _ _
  have plain (j : Nat) (_ : j ∈ [1, 0]) (d : ClassDef) (hd : shadowing.classes[j]? = some d) :
      d.Plain := by
    rcases shadowing_classes hd with rfl | rfl <;> exact List.all_eq_true.mp rfl
  have index : shadowing.index? "B" = some 1 := rfl
  have chain : shadowing.chain? 1 = some [1, 0] := rfl
  have depth : (Context.initial "").frame.depth < oneCallDeep.callDepth := Nat.zero_lt_one
  obtain ⟨fields, log, run, values, _, keys⟩ :=
    new_agrees_with_resolution (c := { Context.initial "" with classes := shadowing })
      shadowing_wellFormed listed index chain plain depth 0 3
  have value (x : String) {owner : Nat} {m : Member} {u : ClassTable} {v : Value}
      (hx : x ∈ ["m", "y", "x", "y"]) (hresolve : shadowing.resolve? 1 x = some (.found owner m, u))
      (hm : m.initial? = some v) : fields.get? x = some v := by
    obtain ⟨_, _, _, _, hresolve', hm', hv⟩ := values x hx
    cases hresolve.symm.trans hresolve'
    cases hm.symm.trans hm'
    exact hv
  exact ⟨fields, log, run, keys, value "x" (by decide) rfl rfl, value "y" (by decide) rfl rfl,
    value "m" (by decide) rfl rfl⟩

end ClassScript
