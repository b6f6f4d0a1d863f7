import ClassScript.Proofs.MemberCalls

/-!
# The interface check agrees with dispatch

A class is checked before it is in the table: what a signature would find is put together from the
members of the class and the answer of its base. Dispatch searches the chain of the class once it
is there. Both find the same, so a class is accepted exactly when each required name will mean a
method of the required arity on it, and by the stability of answers it does so from then on.
-/

namespace ClassScript

/-- Whether a member is a method with that many parameters. -/
def Member.takes (n : Nat) (m : Member) : Bool :=
  m.isMethod && m.arity == n

/-- Class `i` has the method that a signature asks for. -/
def ClassTable.Implements (t : ClassTable) (i : Nat) (s : Signature) : Prop :=
  t.Resolves (Member.takes s.params.length) i s.name

/-- What the listed interfaces ask for, in order, each signature with its interface. -/
def Context.required (c : Context) (interfaces : List String) : List (String × Signature) :=
  interfaces.flatMap fun i => ((c.interfaces.get? i).getD []).map fun s => (i, s)

/-- `u` has the classes of `t`; only what is remembered may differ. -/
structure ClassTable.Recalls (t u : ClassTable) : Prop where
  classes : u.classes = t.classes
  indices : u.indices = t.indices
  wellFormed : u.WellFormed

namespace ClassTable

variable {t u : ClassTable}

theorem Recalls.extends (h : t.Recalls u) : t.Extends u := by
  intro i c hc
  rw [h.classes]
  exact hc

theorem Recalls.resolve? (h : t.Recalls u) {i : Nat} (hi : i < t.size) (name : String) :
    ∃ r u', t.search? i name = some r ∧ u.resolve? i name = some (r, u') ∧ t.Recalls u' := by
  have hi' : i < u.size := by rw [size, h.classes]; exact hi
  have back : u.Extends t := by
    intro j c hc
    rw [← h.classes]
    exact hc
  obtain ⟨r, hr⟩ := h.wellFormed.search?_isSome hi' name
  obtain ⟨u', hu'⟩ := h.wellFormed.resolve?_complete hr
  obtain ⟨hclasses, hindices⟩ := WellFormed.resolve?_classes hu'
  refine ⟨r, u', ?_, hu', hclasses.trans h.classes, hindices.trans h.indices,
    (h.wellFormed.resolve? hu').1⟩
  rw [h.wellFormed.search?_of_extends back hi', hr]

end ClassTable

/-- What the check of a class finds is what dispatch will find. -/
theorem implementation?_eq (i : Nat) (own : Option Member) (inherited : Resolution) :
    implementation? own inherited = (Resolution.inheriting i own inherited).method? := by
  rcases own with _ | (_ | _) <;> rcases inherited with _ | ⟨_, (_ | _)⟩ <;> rfl

/-- How the checks `x` of the class `d` end in the context `c`, whatever is remembered there: they
pass when `P` holds of every requirement, and fail at the first of which it does not hold. -/
def Checks (c : Context) (P : Signature → Prop) (d : ClassDef) (line : Nat)
    (rs : List (String × Signature)) (x : Run Unit) : Prop :=
  ∀ u, c.classes.Recalls u → ∃ u', c.classes.Recalls u' ∧
    ((x { c with classes := u } = (.ok (), { c with classes := u' }) ∧ ∀ r ∈ rs, P r.2) ∨
    ∃ before i s after, rs = before ++ (i, s) :: after ∧ (∀ r ∈ before, P r.2) ∧ ¬ P s ∧
      x { c with classes := u } =
        (.error (.fault (.onLine (.notImplemented d.name i s.name s.params.length) line)),
          { c with classes := u' }))

namespace Checks

variable {c : Context} {P : Signature → Prop} {d : ClassDef} {line : Nat}
  {rs rs' : List (String × Signature)} {x y : Run Unit}

theorem nil : Checks c P d line [] (pure ()) :=
  fun u hu => ⟨u, hu, Or.inl ⟨rfl, by simp⟩⟩

theorem append (hx : Checks c P d line rs x) (hy : Checks c P d line rs' y) :
    Checks c P d line (rs ++ rs') (do x; y) := by
  intro u hu
  obtain ⟨u', hu', ⟨hok, hall⟩ | ⟨before, i, s, after, rfl, hbefore, hs, herror⟩⟩ := hx u hu
  · obtain ⟨u'', hu'', hrest⟩ := hy u' hu'
    refine ⟨u'', hu'', ?_⟩
    rw [Run.bind_apply, hok]
    rcases hrest with ⟨hok', hall'⟩ | ⟨before, i, s, after, rfl, hbefore, hs, herror⟩
    · refine Or.inl ⟨hok', ?_⟩
      intro r hr
      rcases List.mem_append.mp hr with hr | hr
      · exact hall r hr
      · exact hall' r hr
    · refine Or.inr ⟨rs ++ before, i, s, after, by simp, ?_, hs, herror⟩
      intro r hr
      rcases List.mem_append.mp hr with hr | hr
      · exact hall r hr
      · exact hbefore r hr
  · refine ⟨u', hu', Or.inr ⟨before, i, s, after ++ rs', by simp, hbefore, hs, ?_⟩⟩
    rw [Run.bind_apply, herror]

end Checks

section

variable {c : Context} {d : ClassDef} (base : ∀ b, d.base = some b → b < c.classes.size)

/-- What the base of a class about to be defined answers. -/
def Context.inherited (c : Context) (d : ClassDef) (name : String) : Resolution :=
  (d.base.bind fun b => c.classes.search? b name).getD .notFound

/-- The class would have the method that a signature asks for. -/
def Context.WouldImplement (c : Context) (d : ClassDef) (s : Signature) : Prop :=
  ∃ m, (Resolution.inheriting c.classes.size (d.members.get? s.name)
    (c.inherited d s.name)).method? = some m ∧ m.arity = s.params.length

include base

theorem inherited_apply {u : ClassTable} (hu : c.classes.Recalls u) (name : String) :
    ∃ u', c.classes.Recalls u' ∧ inherited d name { c with classes := u } =
      (.ok (c.inherited d name), { c with classes := u' }) := by
  rw [inherited, Context.inherited]
  cases hb : d.base with
  | none => exact ⟨u, hu, rfl⟩
  | some b =>
    obtain ⟨r, u', hr, hu', hrecalls⟩ := hu.resolve? (base b hb) name
    refine ⟨u', hrecalls, ?_⟩
    dsimp only
    rw [Run.resolve_apply hu', Option.bind_some, hr]
    rfl

theorem checks_signature (line : Nat) (interface : String) (s : Signature) :
    Checks c (c.WouldImplement d) d line [(interface, s)] (checkSignature d interface line s) := by
  intro u hu
  obtain ⟨u', hu', hinherited⟩ := inherited_apply base hu s.name
  refine ⟨u', hu', ?_⟩
  rw [checkSignature, Run.bind_apply, hinherited]
  dsimp only
  rw [implementation?_eq c.classes.size, requireMethod, Run.refuseIf]
  cases hm : (Resolution.inheriting c.classes.size (d.members.get? s.name)
      (c.inherited d s.name)).method? with
  | none =>
    refine Or.inr ⟨[], interface, s, [], rfl, by simp, ?_, rfl⟩
    rintro ⟨m, hm', _⟩
    rw [hm] at hm'
    cases hm'
  | some m =>
    by_cases harity : m.arity = s.params.length
    · refine Or.inl ⟨?_, ?_⟩
      · simp [Option.all, harity]
      · intro r hr
        cases List.mem_singleton.mp hr
        exact ⟨m, hm, harity⟩
    · refine Or.inr ⟨[], interface, s, [], rfl, by simp, ?_, ?_⟩
      · rintro ⟨m', hm', harity'⟩
        rw [hm] at hm'
        cases hm'
        exact harity harity'
      · simp only [Option.all, bne_iff_ne.mpr harity, if_true]
        rfl

theorem checks_signatures (line : Nat) (interface : String) (signatures : List Signature) :
    Checks c (c.WouldImplement d) d line (signatures.map fun s => (interface, s))
      (signatures.forM (checkSignature d interface line)) := by
  induction signatures with
  | nil => exact .nil
  | cons s signatures ih => exact (checks_signature base line interface s).append ih

/-- The interfaces are checked one after another, each one's signatures in order. -/
theorem checks_interfaces (line : Nat) {interfaces : List String}
    (registered : ∀ i ∈ interfaces, c.interfaces.contains i = true) :
    Checks c (c.WouldImplement d) d line (c.required interfaces)
      (interfaces.forM (checkInterface d line)) := by
  induction interfaces with
  | nil => exact .nil
  | cons i interfaces ih =>
    have rest := ih fun j hj => registered j (List.mem_cons_of_mem i hj)
    obtain ⟨signatures, hs⟩ := Option.isSome_iff_exists.mp (registered i List.mem_cons_self)
    have first : Checks c (c.WouldImplement d) d line
        (((c.interfaces.get? i).getD []).map fun s => (i, s)) (checkInterface d line i) := by
      intro u hu
      have step : checkInterface d line i { c with classes := u } =
          signatures.forM (checkSignature d i line) { c with classes := u } := by
        rw [checkInterface, Run.bind_apply, Run.get_apply]
        dsimp only
        rw [hs]
      rw [step, hs]
      exact checks_signatures base line i signatures u hu
    exact first.append rest

/-- In the table that has the class, the name means what the check has put together. -/
theorem implements_iff (wf : c.classes.WellFormed) {extended : ClassTable}
    (h : c.classes.define d = .ok (c.classes.size, extended)) (s : Signature) :
    extended.Implements c.classes.size s ↔ c.WouldImplement d s := by
  have ext := ClassTable.WellFormed.extends_define h
  have hwf := wf.define base h
  have own : extended.classes[c.classes.size]? = some d := by
    obtain ⟨_, _, rfl⟩ := ClassTable.WellFormed.define_eq h
    simp [ClassTable.size]
  have inherited : (d.base.bind fun b => extended.search? b s.name).getD .notFound =
      c.inherited d s.name := by
    rw [Context.inherited]
    cases hb : d.base with
    | none => rfl
    | some b =>
      rw [Option.bind_some, Option.bind_some, wf.search?_of_extends ext (base b hb)]
  rw [ClassTable.Implements, hwf.resolves_iff, hwf.search?_eq own, inherited]
  constructor
  · rintro ⟨owner, m, hfound, hm⟩
    obtain ⟨hmethod, harity⟩ := Bool.and_eq_true_iff.mp hm
    refine ⟨m, ?_, by simpa using harity⟩
    rw [Option.some.inj hfound, Resolution.method?, if_pos hmethod]
  · rintro ⟨m, hfound, harity⟩
    cases hr : Resolution.inheriting c.classes.size (d.members.get? s.name)
        (c.inherited d s.name) with
    | notFound => rw [hr] at hfound; cases hfound
    | found owner m' =>
      rw [hr, Resolution.method?] at hfound
      split at hfound
      · rename_i hmethod
        cases hfound
        exact ⟨owner, m, rfl, by simp [Member.takes, hmethod, harity]⟩
      · cases hfound

end

theorem ClassTable.define_new {t : ClassTable} {c : ClassDef} (new : t.contains c.name = false) :
    t.define c = .ok (t.size, { t with
      classes := t.classes.push c
      indices := t.indices.insert c.name t.size }) := by
  rw [define, new]
  rfl

/-- The table after a class has been accepted: the class is at the end, whatever the checks have
remembered. -/
theorem registerClass_apply {c : Context} {d : ClassDef} {u extended : ClassTable}
    (hu : c.classes.Recalls u) (h : c.classes.define d = .ok (c.classes.size, extended))
    (env : Environment) (line : Nat) :
    ∃ v, u.define d = .ok (c.classes.size, v) ∧ v.classes = extended.classes ∧
      v.indices = extended.indices ∧
      ∃ log, registerClass env d line { c with classes := u } =
        (.ok (), { c with classes := v, log := log }) := by
  obtain ⟨hnew, _, rfl⟩ := ClassTable.WellFormed.define_eq h
  have hsize : u.size = c.classes.size := by rw [ClassTable.size, hu.classes, ClassTable.size]
  have hnew' : u.contains d.name = false := by
    rw [ClassTable.contains, ClassTable.index?, hu.indices, ← ClassTable.index?, hnew]
    rfl
  have hdefine := ClassTable.define_new hnew'
  rw [hsize] at hdefine
  refine ⟨_, hdefine, by rw [hu.classes], by rw [hu.indices], ?_⟩
  simp only [registerClass, Run.bind_apply, Run.get_apply, hdefine, Run.ofExceptAt, Run.pure_apply,
    Run.modify_apply, Run.debug]
  split
  · exact ⟨_, rfl⟩
  · exact ⟨_, rfl⟩

/-- A declaration of a new name over an existing base is its checks and then the registration. -/
theorem declareClass_apply {c : Context} {name : String} {base : Option String}
    (new : c.classes.contains name = false) (hbase : ∀ b ∈ base, c.classes.contains b = true)
    (env : Environment) (interfaces : List String) (members : List Member) (line : Nat) :
    declareClass env name base interfaces members line c =
      (do interfaces.forM (checkInterface
            (.ofMembers name (base.bind c.classes.index?) interfaces members) line)
          registerClass env (.ofMembers name (base.bind c.classes.index?) interfaces members) line)
        c := by
  have index : baseIndex base line c = (.ok (base.bind c.classes.index?), c) := by
    cases base with
    | none => rfl
    | some b =>
      obtain ⟨i, hi⟩ := Option.isSome_iff_exists.mp (hbase b rfl)
      simp only [baseIndex, Run.bind_apply, Run.get_apply, ClassTable.lookup, hi, Run.ofExceptAt,
        Run.pure_apply, Option.bind_some]
  rw [declareClass, Run.bind_apply, Run.get_apply]
  dsimp only
  rw [new, Run.bind_apply, Run.refuseIf]
  simp only [Bool.false_eq_true, if_false, Run.pure_apply, Run.bind_apply, index]

/-- A class that has the method of a signature lets it be read from every instance, and a call with
as many arguments as the signature has parameters gets to the body. -/
theorem ClassTable.Implements.callable {c : Context} {s : Signature} {self : Instance}
    (h : c.classes.Implements self.classIndex s) :
    ∃ u owner, ∃ f : Function,
      (∀ line, readMember (.object self) s.name line c =
        (.ok (.method c.nextId self s.name), { c with classes := u, nextId := c.nextId + 1 })) ∧
      ∀ env k args line, args.length = s.params.length →
        callMethod env k self s.name args line c =
          (do noteCall env self s.name args
              enterBody env k s.name f args (some ⟨self, owner⟩) line) { c with classes := u } := by
  obtain ⟨owner, m, u, hresolve, hm⟩ := h
  obtain ⟨hmethod, harity⟩ := Bool.and_eq_true_iff.mp hm
  obtain ⟨f, hf, hcall⟩ := callMethod_of_method hmethod hresolve
  refine ⟨u, owner, f, readMember_of_method hmethod hresolve, fun env k args line hargs => ?_⟩
  have hcount : f.params.length = args.length := by
    rw [hf, hargs]
    exact eq_of_beq harity
  rw [hcall, invoke_of_arity hcount]

/-- A declaration whose name is new, whose base exists and whose interfaces are registered is
accepted if and only if, in the table that has the class, the name of every signature they ask for
means a method of its arity. When it is refused, the fault names the first signature of which this
is not so, and the classes stay as they are. When it is accepted, then after whatever definitions
follow, each such method can be read from every instance of the class, and a call with as many
arguments gets past all checks to the body. -/
theorem interface_check_exact (env : Environment) {c : Context} (wf : c.classes.WellFormed)
    {name : String} {base : Option String} {interfaces : List String}
    (new : c.classes.contains name = false) (hbase : ∀ b ∈ base, c.classes.contains b = true)
    (registered : ∀ i ∈ interfaces, c.interfaces.contains i = true) (members : List Member)
    (line : Nat) :
    ∃ extended,
      c.classes.define (.ofMembers name (base.bind c.classes.index?) interfaces members) =
        .ok (c.classes.size, extended) ∧
      ∃ result after, declareClass env name base interfaces members line c = (result, after) ∧
      (result = .ok () ↔
        ∀ r ∈ c.required interfaces, extended.Implements c.classes.size r.2) ∧
      (∀ stop, result = .error stop →
        after.classes.classes = c.classes.classes ∧ after.classes.indices = c.classes.indices ∧
        ∃ before i s rest, c.required interfaces = before ++ (i, s) :: rest ∧
          (∀ r ∈ before, extended.Implements c.classes.size r.2) ∧
          ¬ extended.Implements c.classes.size s ∧
          stop = .fault (.onLine (.notImplemented name i s.name s.params.length) line)) ∧
      (result = .ok () →
        after.classes.classes = extended.classes ∧ after.classes.indices = extended.indices ∧
        ∀ later : Context, after.classes.Reaches later.classes →
          ∀ r ∈ c.required interfaces, ∀ self : Instance, self.classIndex = c.classes.size →
          ∃ u owner, ∃ f : Function,
            (∀ line', readMember (.object self) r.2.name line' later =
              (.ok (.method later.nextId self r.2.name),
                { later with classes := u, nextId := later.nextId + 1 })) ∧
            ∀ env' k args line', args.length = r.2.params.length →
              callMethod env' k self r.2.name args line' later =
                (do noteCall env' self r.2.name args
                    enterBody env' k r.2.name f args (some ⟨self, owner⟩) line')
                  { later with classes := u }) := by
  set d := ClassDef.ofMembers name (base.bind c.classes.index?) interfaces members with hd
  have admitted : ∀ b, d.base = some b → b < c.classes.size := by
    intro b hb
    have hindex : base.bind c.classes.index? = some b := hb
    obtain ⟨b', _, hindex⟩ := Option.bind_eq_some_iff.mp hindex
    obtain ⟨e, he, _⟩ := (wf.index_iff b' b).mp hindex
    exact ClassTable.lt_size he
  have hdefine := ClassTable.define_new (c := d) new
  set extended : ClassTable := { c.classes with
    classes := c.classes.classes.push d
    indices := c.classes.indices.insert d.name c.classes.size }
  have agree (s : Signature) := implements_iff admitted wf hdefine s
  refine ⟨extended, hdefine, ?_⟩
  rw [declareClass_apply new hbase env interfaces members line, ← hd, Run.bind_apply]
  obtain ⟨u, hu, ⟨hok, hall⟩ | ⟨before, i, s, rest, hsplit, hbefore, hs, herror⟩⟩ :=
    checks_interfaces admitted line registered c.classes ⟨rfl, rfl, wf⟩
  · obtain ⟨v, hv, hclasses, hindices, log, hregister⟩ := registerClass_apply hu hdefine env line
    rw [hok]
    dsimp only
    rw [hregister]
    have every : ∀ r ∈ c.required interfaces, extended.Implements c.classes.size r.2 :=
      fun r hr => (agree r.2).mpr (hall r hr)
    refine ⟨_, _, rfl, ⟨fun _ => every, fun _ => rfl⟩, by rintro stop ⟨⟩, fun _ => ?_⟩
    refine ⟨hclasses, hindices, fun later hlater r hr self hself => ?_⟩
    have hvwf : v.WellFormed := by
      refine hu.wellFormed.define (fun b hb => ?_) hv
      rw [ClassTable.size, hu.classes]
      exact admitted b hb
    have ext : extended.Extends v := by
      intro j e he
      rw [hclasses]
      exact he
    obtain ⟨hlaterwf, ext'⟩ := hvwf.of_reaches hlater
    refine ClassTable.Implements.callable ?_
    rw [hself]
    exact (wf.define admitted hdefine).resolves_of_extends hlaterwf (ext.trans ext') (every r hr)
  · rw [herror]
    refine ⟨_, _, rfl, ⟨by rintro ⟨⟩, fun hall => ?_⟩, ?_, by rintro ⟨⟩⟩
    · have hbad := hall (i, s) (by rw [hsplit]; simp)
      exact absurd ((agree s).mp hbad) hs
    · rintro stop ⟨⟩
      exact ⟨hu.classes, hu.indices, before, i, s, rest, hsplit,
        fun r hr => (agree r.2).mpr (hbefore r hr), fun h => hs ((agree s).mp h), rfl⟩

/-- A class with a method of one parameter, and one with a field of the same name. -/
private def methodAndField : ClassTable :=
  (ClassTable.empty.after (.define (.ofMembers "A" none []
    [.method "m" .publicAccess ["a"] (.mk [] 1) false false 1]))).after
    (.define (.ofMembers "F" none [] [.field "m" .publicAccess none 1]))

/-- These classes, and an interface that asks for the method. -/
private def withInterface : Context :=
  { Context.initial "" with
    classes := methodAndField
    interfaces := Bindings.empty.insert "I" [⟨"m", ["x"], 1⟩] }

private theorem methodAndField_wellFormed : methodAndField.WellFormed := by
  refine (ClassTable.WellFormed.empty.of_reaches (.step _ (.step _ .refl ?_) ?_)).1
  · intro b hb; cases hb
  · intro b hb; cases hb

private def noFiles : Environment := ⟨.ofList "" [], none, 1, 1, false⟩

/-- A class that inherits the method is accepted, and its instances have it from then on. One that
declares the method itself but inherits the field is refused. -/
theorem interface_check_exact_inherited :
    (∀ later : Context,
      (declareClass noFiles "B" (some "A") ["I"] [] 2 withInterface).2.classes.Reaches
        later.classes →
      ∃ u, readMember (.object ⟨0, 2, "B"⟩) "m" 3 later =
        (.ok (.method later.nextId ⟨0, 2, "B"⟩ "m"),
          { later with classes := u, nextId := later.nextId + 1 })) ∧
    (declareClass noFiles "G" (some "F") ["I"]
        [.method "m" .publicAccess ["a"] (.mk [] 2) false false 2] 2 withInterface).1 =
      .error (.fault (.onLine (.notImplemented "G" "I" "m" 1) 2)) := by
  have registered : ∀ i ∈ ["I"], withInterface.interfaces.contains i = true := by
    intro i hi
    cases List.mem_singleton.mp hi
    rfl
  constructor
  · intro later hlater
    have existing : ∀ b ∈ some "A", withInterface.classes.contains b = true := by
      rintro b ⟨⟩
      rfl
    obtain ⟨_, _, result, after, hrun, _, _, haccepted⟩ := interface_check_exact noFiles
      (c := withInterface) methodAndField_wellFormed
      (show withInterface.classes.contains "B" = false by decide) existing registered [] 2
    have hok : (declareClass noFiles "B" (some "A") ["I"] [] 2 withInterface).1 = .ok () := rfl
    rw [hrun] at hlater hok
    obtain ⟨u, _, _, hread, _⟩ := (haccepted hok).2.2 later hlater ("I", ⟨"m", ["x"], 1⟩)
      List.mem_cons_self ⟨0, 2, "B"⟩ rfl
    exact ⟨u, hread 3⟩
  · have existing : ∀ b ∈ some "F", withInterface.classes.contains b = true := by
      rintro b ⟨⟩
      rfl
    obtain ⟨_, _, result, after, hrun, _, hrefused, _⟩ := interface_check_exact noFiles
      (c := withInterface) methodAndField_wellFormed
      (show withInterface.classes.contains "G" = false by decide) existing registered
      [.method "m" .publicAccess ["a"] (.mk [] 2) false false 2] 2
    rw [hrun]
    cases hresult : result with
    | ok a =>
      rw [hresult] at hrun
      have hbad := congrArg Prod.fst hrun
      cases hbad
    | error stop =>
      obtain ⟨_, _, before, i, s, rest, hsplit, _, _, rfl⟩ := hrefused stop hresult
      have hone : [("I", (⟨"m", ["x"], 1⟩ : Signature))] = before ++ (i, s) :: rest := hsplit
      cases before with
      | nil => cases hone; rfl
      | cons r before => simp at hone

end ClassScript
