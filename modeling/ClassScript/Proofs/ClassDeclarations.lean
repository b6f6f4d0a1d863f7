import ClassScript.Proofs.InterfaceCheck
import ClassScript.Proofs.ParsedSources
import ClassScript.Proofs.SessionSafety

/-!
# A class declaration does all or nothing

A declaration can be refused late, when several of its interfaces have been checked, and those
checks have made the table remember answers that it did not know before. So a refused declaration
does not leave the table as it was; it leaves a table that has the same classes under the same names
and answers every question about them as before. An accepted one adds its class at the end and
changes no answer about the classes that were there.

How the checks decide is the subject of another module; here they may decide in any way.
-/

namespace ClassScript

/-- A session passes through the context, the debug log left out. -/
def Context.Reached (c : Context) : Prop :=
  ∃ (s : Session) (past : List Event) (debug : Bool) (source : String) (events : List Event),
    s.Lived past ∧ s.Passes debug source events ∧ ∃ ev ∈ past ++ events, ev.context = c.withLog []

/-- For the classes of `t`, what a name means and which method it finds is the same in `u`. -/
structure ClassTable.SameAnswers (t u : ClassTable) : Prop where
  resolve : ∀ i < t.size, ∀ name,
    (u.resolve? i name).map Prod.fst = (t.resolve? i name).map Prod.fst
  findMethod : ∀ i < t.size, ∀ name, u.findMethod? (some i) name = t.findMethod? (some i) name

/-- Why a class declaration may be refused. -/
inductive Context.Refuses (c : Context) (name : String) (base : Option String)
    (interfaces : List String) : Cause → Prop
  | named : c.classes.contains name = true → Refuses c name base interfaces (.classExists name)
  | based {b : String} : b ∈ base → c.classes.contains b = false →
    Refuses c name base interfaces (.undefinedClass b)
  | interface {i : String} : i ∈ interfaces → c.interfaces.contains i = false →
    Refuses c name base interfaces (.undefinedInterface i)
  | method {i : String} {signatures : List Signature} {s : Signature} : i ∈ interfaces →
    c.interfaces.get? i = some signatures → s ∈ signatures →
    Refuses c name base interfaces (.notImplemented name i s.name s.params.length)

theorem Context.Reached.wellFormed {c : Context} (h : c.Reached) : c.classes.WellFormed := by
  obtain ⟨s, past, debug, source, events, lived, passes, ev, hev, hcontext⟩ := h
  obtain ⟨events', w, passes', passage⟩ := lived.passage debug source
  cases passes.unique passes'
  obtain ⟨u, _, sound⟩ := passage.of_mem hev
  have hclasses : ev.context.classes = u.classes := sound.fits.classes
  rw [hcontext] at hclasses
  have same : c.classes = u.classes := hclasses
  rw [same]
  exact u.wellFormed

/-- Between two runs a session is at a context that it passes through. -/
theorem Context.reached_fresh {s : Session} {past : List Event} (lived : s.Lived past) :
    s.fresh.Reached := by
  obtain ⟨events, _, passes, _⟩ := lived.passage false ""
  refine ⟨s, past, false, "", events, lived, passes, s.fresh.event .began, ?_, rfl⟩
  refine List.mem_append_right past ?_
  cases passes with
  | refused => exact List.mem_cons_self
  | executed => exact List.mem_cons_self

namespace ClassTable

variable {t u : ClassTable}

/-- With or without memory, the answer is that of the search, also where there is none. -/
theorem WellFormed.resolve?_fst (ht : t.WellFormed) (i : Nat) (name : String) :
    (t.resolve? i name).map Prod.fst = t.search? i name := by
  cases hs : t.search? i name with
  | some r =>
    obtain ⟨v, hv⟩ := ht.resolve?_complete hs
    rw [hv, Option.map_some]
  | none =>
    cases hr : t.resolve? i name with
    | none => rfl
    | some answer =>
      rw [ht.resolve?_sound hr] at hs
      cases hs

/-- Neither new classes nor remembered answers change what is answered about a class. -/
theorem WellFormed.sameAnswers (ht : t.WellFormed) (hu : u.WellFormed) (ext : t.Extends u) :
    t.SameAnswers u := by
  constructor
  · intro i hi name
    rw [ht.resolve?_fst, hu.resolve?_fst, ht.search?_of_extends ext hi]
  · intro i hi name
    obtain ⟨rest, hchain, _⟩ := ht.chain?_spec hi
    have inside : ∀ j ∈ i :: rest, j < t.size := fun j hj => ht.mem_chain?_lt hchain hj
    rw [findMethod?, findMethod?, ht.chain?_of_extends ext hi, hchain]
    simp only [Option.map_some, nearest?_of_extends ext inside]

theorem Recalls.sameAnswers (h : t.Recalls u) (ht : t.WellFormed) : t.SameAnswers u :=
  ht.sameAnswers h.wellFormed h.extends

end ClassTable

/-- Whatever is remembered in the context `c`, the check `x` passes or ends with one of the
refusals, and changes nothing but what is remembered. -/
def PassesOrRefuses (c : Context) (line : Nat) (refusal : Cause → Prop) (x : Run Unit) : Prop :=
  ∀ u, c.classes.Recalls u → ∃ u', c.classes.Recalls u' ∧
    (x { c with classes := u } = (.ok (), { c with classes := u' }) ∨
    ∃ cause, refusal cause ∧
      x { c with classes := u } =
        (.error (.fault (.onLine cause line)), { c with classes := u' }))

namespace PassesOrRefuses

variable {c : Context} {line : Nat} {refusal : Cause → Prop} {x y : Run Unit}

theorem done : PassesOrRefuses c line refusal (pure ()) :=
  fun u hu => ⟨u, hu, Or.inl rfl⟩

theorem seq (hx : PassesOrRefuses c line refusal x) (hy : PassesOrRefuses c line refusal y) :
    PassesOrRefuses c line refusal (do x; y) := by
  intro u hu
  obtain ⟨u₁, hu₁, passed | ⟨cause, hcause, refused⟩⟩ := hx u hu
  · obtain ⟨u₂, hu₂, rest⟩ := hy u₁ hu₁
    refine ⟨u₂, hu₂, ?_⟩
    rw [Run.bind_apply, passed]
    exact rest
  · refine ⟨u₁, hu₁, Or.inr ⟨cause, hcause, ?_⟩⟩
    rw [Run.bind_apply, refused]

theorem forM {α : Type} {f : α → Run Unit} {as : List α}
    (h : ∀ a ∈ as, PassesOrRefuses c line refusal (f a)) :
    PassesOrRefuses c line refusal (as.forM f) := by
  induction as with
  | nil => exact done
  | cons a as ih =>
    exact (h a List.mem_cons_self).seq (ih fun b hb => h b (List.mem_cons_of_mem a hb))

end PassesOrRefuses

section

variable {c : Context} {d : ClassDef} (hbase : ∀ b, d.base = some b → b < c.classes.size)
include hbase

theorem checkSignature_passesOrRefuses (line : Nat) (interface : String) (s : Signature)
    {refusal : Cause → Prop}
    (h : refusal (.notImplemented d.name interface s.name s.params.length)) :
    PassesOrRefuses c line refusal (checkSignature d interface line s) := by
  intro u hu
  obtain ⟨u', hu', ⟨passed, _⟩ | ⟨before, i, s', after, hsplit, _, _, refused⟩⟩ :=
    checks_signature hbase line interface s u hu
  · exact ⟨u', hu', Or.inl passed⟩
  · have hmem : (i, s') ∈ [(interface, s)] := by rw [hsplit]; simp
    cases List.mem_singleton.mp hmem
    exact ⟨u', hu', Or.inr ⟨_, h, refused⟩⟩

theorem checkInterface_passesOrRefuses (line : Nat) (base : Option String)
    {interfaces : List String} {i : String} (hi : i ∈ interfaces) :
    PassesOrRefuses c line (c.Refuses d.name base interfaces) (checkInterface d line i) := by
  intro u hu
  rw [checkInterface, Run.bind_apply, Run.get_apply]
  dsimp only
  cases hs : c.interfaces.get? i with
  | none =>
    have unknown : c.interfaces.contains i = false := by rw [Bindings.contains, hs]; rfl
    exact ⟨u, hu, Or.inr ⟨_, .interface hi unknown, rfl⟩⟩
  | some signatures =>
    have every : ∀ s ∈ signatures, PassesOrRefuses c line (c.Refuses d.name base interfaces)
        (checkSignature d i line s) := fun s hmem =>
      checkSignature_passesOrRefuses hbase line i s (.method hi hs hmem)
    exact PassesOrRefuses.forM every u hu

end

/-- The checks of a declaration and what comes after them, in the context it starts in. -/
theorem declareClass_cases (env : Environment) {c : Context} (wf : c.classes.WellFormed)
    (name : String) (base : Option String) (interfaces : List String) (members : List Member)
    (line : Nat) :
    (∃ cause u, c.Refuses name base interfaces cause ∧ c.classes.Recalls u ∧
      declareClass env name base interfaces members line c =
        (.error (.fault (.onLine cause line)), { c with classes := u })) ∨
    ∃ u v log, c.classes.contains name = false ∧ (∀ b ∈ base, c.classes.contains b = true) ∧
      c.classes.Recalls u ∧
      u.define (.ofMembers name (base.bind c.classes.index?) interfaces members) =
        .ok (c.classes.size, v) ∧
      declareClass env name base interfaces members line c =
        (.ok (), { c with classes := v, log := log }) := by
  have same : c.classes.Recalls c.classes := ⟨rfl, rfl, wf⟩
  cases new : c.classes.contains name with
  | true =>
    refine Or.inl ⟨_, c.classes, .named new, same, ?_⟩
    rw [declareClass, Run.bind_apply, Run.get_apply]
    dsimp only
    rw [new]
    rfl
  | false =>
    by_cases hbase : ∀ b ∈ base, c.classes.contains b = true
    · have admitted : ∀ b, base.bind c.classes.index? = some b → b < c.classes.size := by
        intro b hb
        obtain ⟨x, _, hx⟩ := Option.bind_eq_some_iff.mp hb
        obtain ⟨e, he, _⟩ := (wf.index_iff x b).mp hx
        exact ClassTable.lt_size he
      set d := ClassDef.ofMembers name (base.bind c.classes.index?) interfaces members with hd
      have checks : PassesOrRefuses c line (c.Refuses name base interfaces)
          (interfaces.forM (checkInterface d line)) :=
        .forM fun i hi => checkInterface_passesOrRefuses admitted line base hi
      rw [declareClass_apply new hbase env interfaces members line, ← hd, Run.bind_apply]
      obtain ⟨u, hu, passed | ⟨cause, hcause, refused⟩⟩ := checks c.classes same
      · obtain ⟨v, hv, _, _, log, registered⟩ :=
          registerClass_apply hu (ClassTable.define_new (c := d) new) env line
        refine Or.inr ⟨u, v, log, rfl, hbase, hu, hv, ?_⟩
        rw [passed]
        exact registered
      · refine Or.inl ⟨cause, u, hcause, hu, ?_⟩
        rw [refused]
    · obtain ⟨b, hb, hunknown⟩ : ∃ b ∈ base, c.classes.contains b = false := by
        simpa using hbase
      cases hb
      have hindex : c.classes.index? b = none := by simpa [ClassTable.contains] using hunknown
      refine Or.inl ⟨_, c.classes, .based rfl hunknown, same, ?_⟩
      simp only [declareClass, Run.bind_apply, Run.get_apply, new, Run.refuseIf, baseIndex,
        ClassTable.lookup, hindex, Run.ofExceptAt, Bool.false_eq_true, if_false, Run.pure_apply]
      rfl

/-- Executing a class declaration in a context that a session passes through ends in one of two
ways. It is refused for one of the stated reasons: then the classes, their names and every answer
about them are as before, and so is all else. Or exactly one class is added, at the end, with the
base that was named and the declared members: then all classes before it, every answer about them
and all else but the debug log are as before. -/
theorem class_declaration_all_or_nothing {c : Context} (reached : c.Reached) (env : Environment)
    (n : Nat) (name : String) (base : Option String) (interfaces : List String)
    (members : List Member) (line : Nat) :
    (∃ cause u, c.Refuses name base interfaces cause ∧
      exec env (n + 1) (.classDecl name base interfaces members line) c =
        (.error (.fault (.onLine cause line)), { c with classes := u }) ∧
      u.classes = c.classes.classes ∧ u.indices = c.classes.indices ∧ c.classes.SameAnswers u) ∨
    ∃ u log, c.classes.contains name = false ∧ (∀ b ∈ base, c.classes.contains b = true) ∧
      exec env (n + 1) (.classDecl name base interfaces members line) c =
        (.ok .normal, { c with classes := u, log := log }) ∧
      u.classes = c.classes.classes.push
        (.ofMembers name (base.bind c.classes.index?) interfaces members) ∧
      u.indices = c.classes.indices.insert name c.classes.size ∧
      c.classes.Extends u ∧ c.classes.SameAnswers u := by
  have wf := reached.wellFormed
  have step : exec env (n + 1) (.classDecl name base interfaces members line) c =
      Run.atLine line (do declareClass env name base interfaces members line
                          return .normal) c := rfl
  rw [step, Run.atLine, Run.mapStop, Run.bind_apply]
  rcases declareClass_cases env wf name base interfaces members line with
    ⟨cause, u, hcause, hu, refused⟩ | ⟨u, v, log, new, hbase, hu, hv, accepted⟩
  · refine Or.inl ⟨cause, u, hcause, ?_, hu.classes, hu.indices, hu.sameAnswers wf⟩
    rw [refused]
    rfl
  · refine Or.inr ⟨v, log, new, hbase, ?_, ?_⟩
    · rw [accepted]
      rfl
    · have ext : c.classes.Extends v := hu.extends.trans (ClassTable.WellFormed.extends_define hv)
      have hwf : v.WellFormed := by
        refine hu.wellFormed.define (fun b hb => ?_) hv
        obtain ⟨x, _, hx⟩ := Option.bind_eq_some_iff.mp hb
        obtain ⟨e, he, _⟩ := (wf.index_iff x b).mp hx
        exact ClassTable.lt_size (hu.extends _ _ he)
      obtain ⟨_, hsize, hv'⟩ := ClassTable.WellFormed.define_eq hv
      refine ⟨?_, ?_, ext, wf.sameAnswers hwf ext⟩
      · rw [hv', hu.classes]
      · rw [hv', ← hsize, hu.indices]
        rfl

private def limited : Session :=
  { Session.start (.ofList "" []) none true "" with limits := ⟨9, 9, 9⟩ }

private def classAndInterface : String := "class A {} interface I { function m(); }"

private def declaring : Context :=
  { Context.initial "" with
    classes := ClassTable.empty.after (.define (.ofMembers "A" none [] []))
    interfaces := Bindings.empty.insert "I" [⟨"m", [], 1⟩] }

private theorem declaring_reached : declaring.Reached := by
  have scanned : scan classAndInterface = ⟨[⟨.keyword, "class", 1, 1⟩, ⟨.identifier, "A", 1, 7⟩,
      ⟨.lbrace, "\x7b", 1, 9⟩, ⟨.rbrace, "\x7d", 1, 10⟩, ⟨.keyword, "interface", 1, 12⟩,
      ⟨.identifier, "I", 1, 22⟩, ⟨.lbrace, "\x7b", 1, 24⟩, ⟨.keyword, "function", 1, 26⟩,
      ⟨.identifier, "m", 1, 35⟩, ⟨.lparen, "(", 1, 36⟩, ⟨.rparen, ")", 1, 37⟩,
      ⟨.separator, ";", 1, 38⟩, ⟨.rbrace, "\x7d", 1, 40⟩], none⟩ := by decide +kernel
  have kept : (limited.run false classAndInterface).2.fresh = declaring := by
    simp only [Session.run,
      parseLogged_apply (limited.environment false) (tokenize_of_scan scanned)]
    rfl
  have lived : limited.Lived [] := .change _ _ _ ⟨9, 9, 9⟩ (.start (.ofList "" []) none true "")
  obtain ⟨events, _, passes, _⟩ := lived.passage false classAndInterface
  rw [← kept]
  exact Context.reached_fresh (.run false classAndInterface lived passes)

/-- A class is refused because neither it nor its base has the method of its interface. What has
been found out about the base is remembered, and nothing else has changed. -/
theorem class_declaration_all_or_nothing_refused :
    declaring.Reached ∧
    ∃ u : ClassTable,
      exec (limited.environment false) 1 (.classDecl "B" (some "A") ["I"] [] 2) declaring =
        (.error (.fault (.onLine (.notImplemented "B" "I" "m" 0) 2)),
          { declaring with classes := u }) ∧
      declaring.classes.known.keys = [] ∧ u.known.keys = [(0, "m")] ∧
      u.classes = declaring.classes.classes ∧ declaring.classes.SameAnswers u := by
  refine ⟨declaring_reached, ?_⟩
  have refused : (exec (limited.environment false) 1
      (.classDecl "B" (some "A") ["I"] [] 2) declaring).1 =
        .error (.fault (.onLine (.notImplemented "B" "I" "m" 0) 2)) := rfl
  have remembered : (exec (limited.environment false) 1
      (.classDecl "B" (some "A") ["I"] [] 2) declaring).2.classes.known.keys = [(0, "m")] := rfl
  obtain ⟨cause, u, _, hrun, hclasses, _, answers⟩ | ⟨u, log, _, _, hrun, _⟩ :=
    class_declaration_all_or_nothing declaring_reached (limited.environment false) 0 "B" (some "A")
      ["I"] [] 2
  · rw [hrun] at refused remembered
    cases refused
    exact ⟨u, hrun, rfl, remembered, hclasses, answers⟩
  · rw [hrun] at refused
    cases refused

end ClassScript
