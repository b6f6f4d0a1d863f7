import ClassScript.Proofs.SafeRuns

/-!
# Every rule of evaluation keeps the object model

One lemma for each rule: when the evaluation of the parts is safe, so is that of the whole. With the
step budget for the induction, evaluation is safe on every budget. The places where a rule relies on
the object model are few. An object is initialized along its chain, which assigns every field its
class has. A bound method is called where its name still means a method. A call through `super`
starts above the owner of the running code, on the chain of the same object.
-/

namespace ClassScript

open Run

/-- Evaluation of the parts is safe; `k'` keeps notes. -/
structure Evaluators.Safe (k : Evaluators) (k' : Scribe → Evaluators) : Prop where
  eval (me : Option Instance) (w : World) (e : Expr) :
    Run.Safe me w e.Answers (k.eval e) fun note => (k' note).eval e
  exec (me : Option Instance) (w : World) (s : Stmt) (hs : s.BindsNames) :
    Run.Safe me w Outcome.Sound (k.exec s) fun note => (k' note).exec s
  bound (note : Scribe) : (k' note).bound = k.bound

/-- A sound value. -/
def soundValue (w : World) (v : Value) : Prop := v.Sound w

/-- Sound values. -/
def soundValues (w : World) (vs : List Value) : Prop := ∀ v ∈ vs, v.Sound w

theorem soundValues.mono {w u : World} {vs : List Value} (h : soundValues w vs)
    (grows : w.Grows u) : soundValues u vs :=
  fun v hv => (h v hv).mono grows

namespace World

variable {w : World}

/-- The code of a method found in the table binds no keyword. -/
theorem bindsNames_of_member? {i : Nat} {x y : String} {a : Access} {params : List String}
    {body : Block} {v o : Bool} {line : Nat}
    (h : w.classes.member? i x = some (.method y a params body v o line)) :
    Function.BindsNames ⟨params, body⟩ := by
  obtain ⟨d, hd, hx⟩ := Option.bind_eq_some_iff.mp h
  obtain ⟨hparams, hbodies⟩ := ((w.declared i d hd).of_get? hx).2
  exact ⟨hparams, hbodies body (by simp [Member.bodies])⟩

/-- What is found on the class of an object is declared on its chain. -/
theorem found {i owner : Nat} {x : String} {m : Member}
    (h : w.classes.search? i x = some (.found owner m)) :
    ∃ chain, w.classes.chain? i = some chain ∧ owner ∈ chain ∧
      w.classes.member? owner x = some m := by
  obtain ⟨chain, hchain, hfound⟩ := Option.map_eq_some_iff.mp h
  obtain ⟨hmem, hm⟩ := ClassTable.resolveOn_found hfound
  exact ⟨chain, hchain, hmem, hm⟩

end World

namespace Builtin

variable {me : Option Instance} {w : World}

theorem safe_classNamed (v : Value) : Safe me w anyEnd (classNamed v) fun _ => classNamed v := by
  refine Safe.get (fun _ _ _ => rfl) fun c _ _ => ?_
  split
  · exact .pure trivial
  · exact .stop trivial

theorem safe_textList (texts : List String) :
    Safe me w soundValue (textList texts) fun _ => textList texts := by
  refine Safe.freshId.bind fun u _ id _ => .pure (.list id fun v hv => ?_)
  obtain ⟨s, _, rfl⟩ := List.mem_map.mp hv
  exact .text s

theorem safe_call (b : Builtin) (name : String) (args : List Value) (line : Nat) :
    Safe me w soundValue (b.call name args line) fun _ => b.call name args line := by
  unfold call
  split
  · rename_i v
    cases b with
    | print => exact (Safe.write _).bind fun _ _ _ _ => .pure .null
    | input =>
      refine (Safe.write _).bind fun _ _ _ _ => Safe.readLine.bind fun _ _ line _ => ?_
      cases line with
      | none => exact .pure .null
      | some line => exact .pure (.text line)
    | sqrt =>
      exact (Safe.ofExcept (P := anyEnd) fun _ _ => trivial).bind fun _ _ _ _ => .pure (.number _)
    | abs =>
      exact (Safe.ofExcept (P := anyEnd) fun _ _ => trivial).bind fun _ _ _ _ => .pure (.number _)
    | typeof => exact .pure (.text _)
    | getMethods => exact (safe_classNamed v).bind fun _ _ d _ => safe_textList d.methodNames
    | getFields => exact (safe_classNamed v).bind fun _ _ d _ => safe_textList d.fieldNames
  · exact .faultAt _ _

end Builtin

section Rules

variable {k : Evaluators} {k' : Scribe → Evaluators} (hk : k.Safe k') (env : Environment)
  {me : Option Instance} {w : World}

include hk

theorem safe_eval (e : Expr) : Safe me w soundValue (k.eval e) fun note => (k' note).eval e :=
  (hk.eval me w e).weaken fun _ _ _ h => h.1

theorem safe_evalAll (es : List Expr) :
    Safe me w soundValues (k.evalAll es) fun note => (k' note).evalAll es := by
  induction es generalizing w with
  | nil => exact .pure (by rintro v ⟨⟩)
  | cons e es ih =>
    refine (safe_eval hk e).bind fun u _ v hv => ih.bind fun u' grows vs hvs => .pure ?_
    exact List.forall_mem_cons.mpr ⟨Value.Sound.mono hv grows, hvs⟩

theorem safe_execAll {ss : List Stmt} (h : ∀ s ∈ ss, s.BindsNames) :
    Safe me w Outcome.Sound (k.execAll ss) fun note => (k' note).execAll ss := by
  induction ss generalizing w with
  | nil => exact .pure (by rintro v ⟨⟩)
  | cons s ss ih =>
    refine (hk.exec me w s (h s List.mem_cons_self)).bind fun u _ outcome hout => ?_
    cases outcome with
    | normal => exact ih fun s' hs' => h s' (List.mem_cons_of_mem s hs')
    | returning v => exact .pure hout
    | breaking => exact .pure hout
    | continuing => exact .pure hout

theorem safe_execBlock {b : Block} (h : b.BindsNames) :
    Safe me w Outcome.Sound (k.execBlock b) fun note => (k' note).execBlock b :=
  safe_execAll hk h

omit hk in
theorem safe_checkDepth :
    Safe me w anyEnd (checkDepth env) fun _ => checkDepth env.quiet := by
  change Safe me w anyEnd (checkDepth env) fun _ => checkDepth env
  refine Safe.get (fun _ _ _ => rfl) fun c _ _ => ?_
  by_cases h : env.callDepth ≤ c.frame.depth
  · simp only [if_pos h]
    exact .stop trivial
  · simp only [if_neg h]
    exact .pure trivial

theorem safe_runBody (label : String) {body : Block} (hbody : body.BindsNames) (line : Nat) :
    Safe me w soundValue (runBody k label body line)
      fun note => runBody (k' note) label body line := by
  refine (safe_execBlock hk hbody).bind fun u _ outcome hout => ?_
  cases outcome with
  | normal => exact .pure .null
  | returning v => exact .pure (hout v (List.mem_singleton_self v))
  | breaking => exact .faultAt _ _
  | continuing => exact .faultAt _ _

/-- The body runs in the frame of the call, where `this` is the receiver. -/
theorem safe_invoke (label : String) {f : Function} (hf : f.BindsNames) {args : List Value}
    (hargs : soundValues w args) {receiver : Option Receiver} (hr : ∀ r ∈ receiver, r.Sound w)
    (line : Nat) :
    Safe me w soundValue (invoke env k label f args receiver line)
      fun note => invoke env.quiet (k' note) label f args receiver line := by
  refine (Safe.refuseIf _ _ _).bind fun u grows _ _ => ?_
  refine (safe_checkDepth env).bind fun u' grows' _ _ => ?_
  have later := grows.trans grows'
  refine Safe.inFrame (fun f => ⟨?_, rfl⟩) (.tracing (safe_runBody hk label hf.2 line))
  exact Frame.sound_calling hf.1 (hargs.mono later) (fun r hmem => (hr r hmem).mono later) f label

theorem safe_callFunction (name : String) (args : List Expr) (line : Nat) :
    Safe me w soundValue (callFunction env k name args line)
      fun note => callFunction env.quiet (k' note) name args line := by
  simp only [callFunction]
  cases Builtin.ofName? name with
  | some b => exact (safe_evalAll hk args).bind fun _ _ vs _ => Builtin.safe_call b name vs line
  | none =>
    refine Safe.get (fun _ _ _ => rfl) fun c hc _ => ?_
    cases hf : c.functions.get? name with
    | none => exact .faultAt _ _
    | some f =>
      refine (safe_evalAll hk args).bind fun _ _ vs hvs => ?_
      exact safe_invoke hk env name (hc.functions f (Bindings.mem_values_of_get? hf)) hvs
        (by rintro r ⟨⟩) line

omit hk in
/-- A method is read as a bound method of its object; a bound method has this object and name. -/
theorem safe_readMember {target : Value} (ht : target.Sound w) (name : String) (line : Nat) :
    Safe me w soundValue (readMember target name line) fun _ => readMember target name line := by
  unfold readMember
  cases target with
  | object o =>
    have ho := ht.object o .whole
    refine (Safe.resolve (World.classIndex_lt ho) name).bind fun u grows r hr => ?_
    rcases r with _ | ⟨owner, (⟨x, a, e, l⟩ | ⟨x, a, ps, b, v, ov, l⟩)⟩
    · exact .faultAt _ _
    · exact .readField o name
    · refine Safe.freshId.bind fun u' grows' id _ => .pure ?_
      refine .ofMethod ((grows.trans grows').mem ho) (grows'.resolves ?_)
      exact u.wellFormed.resolves_iff.mpr ⟨_, _, hr, rfl⟩
  | _ => exact .faultAt _ _

theorem safe_callMethod {o : Instance} (ho : o ∈ w.objects) (name : String) {args : List Value}
    (hargs : soundValues w args) (line : Nat) :
    Safe me w soundValue (callMethod env k o name args line)
      fun note => callMethod env.quiet (k' note) o name args line := by
  refine (Safe.resolve (World.classIndex_lt ho) name).bind fun u grows r hr => ?_
  rcases r with _ | ⟨owner, (⟨x, a, e, l⟩ | ⟨x, a, ps, b, v, ov, l⟩)⟩
  · exact .faultAt _ _
  · exact .faultAt _ _
  · refine (Safe.debug env _).bind fun u' grows' _ _ => ?_
    obtain ⟨chain, hchain, howner, hm⟩ := World.found hr
    refine safe_invoke hk env name (World.bindsNames_of_member? hm)
      (hargs.mono (grows.trans grows')) ?_ line
    rintro r ⟨⟩
    exact Receiver.Sound.mono ⟨grows.mem ho, chain, hchain, howner⟩ grows'

theorem safe_callMember (target : Expr) (name : String) (args : List Expr) (line : Nat) :
    Safe me w soundValue (callMember env k target name args line)
      fun note => callMember env.quiet (k' note) target name args line := by
  refine (safe_eval hk target).bind fun u _ object hobject => ?_
  refine (safe_readMember hobject name line).bind fun u' _ v hv => ?_
  cases v with
  | method id o method =>
    have ho := (Value.Sound.method hv id o method .whole).1
    refine (safe_evalAll hk args).bind fun u'' grows vs hvs => ?_
    exact safe_callMethod hk env (grows.mem ho) method hvs line
  | _ => exact .faultAt _ _

omit hk in
/-- What `super` finds: a method of a strict ancestor of the owner, on the chain of the receiver. -/
theorem superMethod {r : Receiver} (hr : r.Sound w) {d : ClassDef}
    (hd : w.classes.classes[r.owner]? = some d) {base : Nat} (hb : d.base = some base)
    (name : String) :
    ∃ found, w.classes.findMethod? (some base) name = some found ∧
      ∀ owner m, found = .found owner m → Receiver.Sound w ⟨r.self, owner⟩ ∧
        w.classes.StrictAncestor owner r.owner ∧ w.classes.member? owner name = some m := by
  obtain ⟨hself, chain, hchain, howner⟩ := hr
  obtain ⟨rest, hbase, hrest⟩ := w.wellFormed.chain?_derived hd hb
  let answer (chain : List Nat) :=
    Resolution.ofOption (w.classes.nearest? Member.isMethod name chain)
  refine ⟨answer rest, congrArg (Option.map answer) hbase, fun owner m hfound => ?_⟩
  change Resolution.ofOption (w.classes.nearest? Member.isMethod name rest) = _ at hfound
  cases hnearest : w.classes.nearest? Member.isMethod name rest with
  | none => rw [hnearest] at hfound; cases hfound
  | some p =>
    rw [hnearest] at hfound
    cases hfound
    obtain ⟨hmem, hm, _⟩ := ClassTable.nearest?_sound hnearest
    obtain ⟨rest', hsame, hsuffix⟩ := w.wellFormed.chain?_suffix hchain howner
    cases hrest.symm.trans hsame
    exact ⟨⟨hself, chain, hchain, hsuffix.subset (List.mem_cons_of_mem _ hmem)⟩,
      ⟨rest, hrest, hmem⟩, hm⟩

omit hk in
/-- The running code of an object, if any, as a receiver. -/
theorem Context.Fits.receiver {c : Context} (hc : c.Fits w) {o : Instance} {i : Nat}
    (ho : c.frame.self = some o) (hi : c.frame.owner = some i) : Receiver.Sound w ⟨o, i⟩ :=
  ⟨hc.frame.self o ho, hc.frame.coherent.owner o i ho hi⟩

theorem safe_callSuper (name : String) (args : List Expr) (line : Nat) :
    Safe me w soundValue (callSuper env k name args line)
      fun note => callSuper env.quiet (k' note) name args line := by
  refine Safe.get (fun _ _ _ => rfl) fun c hc _ => ?_
  dsimp only
  cases hself : c.frame.self with
  | none => exact .faultAt _ _
  | some self =>
    cases howner : c.frame.owner with
    | none => exact .faultAt _ _
    | some owner =>
      have hr := hc.receiver hself howner
      obtain ⟨chain, hchain, hmem⟩ := hr.2
      refine (Safe.classAt (w.wellFormed.mem_chain?_lt hchain hmem)).bind fun u grows d hd => ?_
      cases hb : d.base with
      | none => exact .faultAt _ _
      | some base =>
        refine Safe.get (fun _ _ _ => rfl) fun c' hc' _ => ?_
        obtain ⟨found, hfound, hmethod⟩ := superMethod (hr.mono grows) hd hb name
        have hlt := u.wellFormed.base_lt owner base ⟨d, hd, hb⟩
        have hbase : base < u.classes.size := Nat.lt_trans hlt (ClassTable.lt_size hd)
        rw [hc'.classes, hfound]
        rcases found with _ | ⟨methodOwner, (⟨x, a, e, l⟩ | ⟨x, a, ps, b, v, ov, l⟩)⟩
        · exact (Safe.classAt hbase).bind fun _ _ _ _ => .faultAt _ _
        · exact (Safe.classAt hbase).bind fun _ _ _ _ => .faultAt _ _
        · obtain ⟨hreceiver, _, hm⟩ := hmethod _ _ rfl
          refine (safe_evalAll hk args).bind fun u' grows' vs hvs => ?_
          refine safe_invoke hk env _ (World.bindsNames_of_member? hm) hvs ?_ line
          rintro r ⟨⟩
          exact hreceiver.mono grows'

/-- The fields that a class declares are assigned one after another. -/
theorem safe_initializeFields {o : Instance} {members : List Member} (ho : o ∈ w.objects)
    (hfields : ∀ m ∈ members, m.isField = true →
      w.classes.Resolves Member.isField o.classIndex m.name) :
    Safe me w (fun u _ => ∀ m ∈ members, m.isField = true → u.assigned o.id m.name)
      (initializeFields k o members) fun note => initializeFields (k' note) o members := by
  induction members generalizing w with
  | nil => exact .pure (by rintro m ⟨⟩)
  | cons m members ih =>
    have hrest := fun m' hm' => hfields m' (List.mem_cons_of_mem m hm')
    cases m with
    | method x a ps b v ov l =>
      refine (ih ho hrest).weaken fun u _ _ h => List.forall_mem_cons.mpr ⟨by rintro ⟨⟩, h⟩
    | field x a initializer l =>
      have hx := hfields _ List.mem_cons_self rfl
      have store {u : World} (grows : w.Grows u) {v : Value} (hv : v.Sound u) : Safe me u
          (fun u _ => ∀ m ∈ Member.field x a initializer l :: members, m.isField = true →
            u.assigned o.id m.name)
          (Run.writeField o x v >>= fun _ => initializeFields k o members)
          fun note => Run.writeField o x v >>= fun _ => initializeFields (k' note) o members := by
        refine (Safe.writeField (grows.mem ho) (grows.resolves hx) hv).bind ?_
        intro u' grows' _ hdone
        have later := grows.trans grows'
        refine (ih (later.mem ho) fun m' hm' hf => later.resolves (hrest m' hm' hf)).weaken ?_
        exact fun u'' _ grows'' h =>
          List.forall_mem_cons.mpr ⟨fun _ => grows''.assigned _ _ hdone, h⟩
      cases initializer with
      | none => exact (Safe.pure (P := soundValue) .null).bind fun _ grows _ hv => store grows hv
      | some e => exact (safe_eval hk e).bind fun _ grows _ hv => store grows hv

/-- Class by class, each one's code running as its owner, the fields of all are assigned. -/
theorem safe_initializeClasses {o : Instance} {chain indices : List Nat} (ho : o ∈ w.objects)
    (hchain : w.classes.chain? o.classIndex = some chain) (hsub : indices ⊆ chain) :
    Safe (some o) w
      (fun u _ => ∀ i ∈ indices, ∀ x m, u.classes.member? i x = some m → m.isField = true →
        u.assigned o.id x)
      (initializeClasses k o indices) fun note => initializeClasses (k' note) o indices := by
  induction indices generalizing w with
  | nil => exact .pure (by rintro i ⟨⟩)
  | cons i rest ih =>
    have hmem := hsub List.mem_cons_self
    have owned : Safe (some o) w anyEnd
        (modify fun c => { c with frame := { c.frame with owner := some i } })
        fun _ => modify fun c => { c with frame := { c.frame with owner := some i } } :=
      .silent (fun c hc hme => ⟨w, .refl w,
        hc.withFrame (hc.frame.withOwner (r := ⟨o, i⟩) ⟨ho, chain, hchain, hmem⟩ hme), hme,
        trivial⟩) fun _ _ _ => rfl
    have hi := w.wellFormed.mem_chain?_lt hchain hmem
    refine owned.bind fun u₁ grows₁ _ _ => ?_
    refine (Safe.classAt (grows₁.lt_size hi)).bind fun u₂ grows₂ d hd => ?_
    have later := grows₁.trans grows₂
    have hchain₂ : u₂.classes.chain? o.classIndex = some chain := by
      rw [w.wellFormed.chain?_of_extends later.classes (World.classIndex_lt ho)]
      exact hchain
    have declared := u₂.declared i d hd
    have hfields (m : Member) (hm : m ∈ d.members.values) (hf : m.isField = true) :
        u₂.classes.Resolves Member.isField o.classIndex m.name := by
      refine (u₂.wellFormed.resolves_field_iff hchain₂).mpr ⟨i, hmem, m, ?_, hf⟩
      rw [ClassTable.member?, hd]
      exact declared.get?_name hm
    refine (safe_initializeFields hk (later.mem ho) hfields).bind fun u₃ grows₃ _ hassigned => ?_
    have hchain₃ : u₃.classes.chain? o.classIndex = some chain := by
      rw [u₂.wellFormed.chain?_of_extends grows₃.classes (World.classIndex_lt (later.mem ho))]
      exact hchain₂
    have hsub' : rest ⊆ chain := fun j hj => hsub (List.mem_cons_of_mem i hj)
    refine (ih (grows₃.mem (later.mem ho)) hchain₃ hsub').weaken ?_
    intro u₄ _ grows₄ hrest
    refine List.forall_mem_cons.mpr ⟨fun x m hm hf => ?_, hrest⟩
    have hd₄ := grows₄.classes i d (grows₃.classes i d hd)
    rw [ClassTable.member?, hd₄] at hm
    obtain ⟨rfl, _⟩ := declared.of_get? hm
    exact grows₄.assigned _ _ (hassigned m (Bindings.mem_values_of_get? hm) hf)

/-- When `new` is through, every field of the object has been assigned. -/
theorem safe_instantiate (className : String) (line : Nat) :
    Safe me w (fun u v => v.Sound u ∧ ∃ o, v = .object o ∧ u.Complete o)
      (instantiate env k className line)
      fun note => instantiate env.quiet (k' note) className line := by
  refine Safe.get (fun _ _ _ => rfl) fun c hc _ => ?_
  have index : Safe me w (fun u i => i < u.classes.size)
      (Run.ofExceptAt line (c.classes.lookup className))
      fun _ => Run.ofExceptAt line (c.classes.lookup className) := by
    refine .ofExceptAt line fun i hi => ?_
    rw [hc.classes] at hi
    exact w.wellFormed.lt_size_of_lookup hi
  refine index.bind fun u₁ _ i hi => (safe_checkDepth env).bind fun u₂ grows₂ _ _ => ?_
  refine (Safe.classAt (grows₂.lt_size hi)).bind fun u₃ _ d hd => ?_
  refine (Safe.allocate hd).bind fun u₄ _ o ho => ?_
  obtain ⟨ho, rfl⟩ := ho
  refine (Safe.debug env _).bind fun u₅ grows₅ _ _ => ?_
  refine (Safe.chain (World.classIndex_lt (grows₅.mem ho))).bind fun u₆ grows₆ chain hchain => ?_
  have ho₆ := grows₆.mem (grows₅.mem ho)
  have sub : chain.reverse ⊆ chain := by simp
  have fields := safe_initializeClasses hk ho₆ hchain sub
  refine (fields.inFrame fun f => ⟨Frame.sound_initializing ho₆ f, rfl⟩).bind ?_
  intro u₇ grows₇ _ hassigned
  refine .pure ⟨.ofObject (grows₇.mem ho₆), o, rfl, fun x hx => ?_⟩
  have hchain₇ : u₇.classes.chain? o.classIndex = some chain := by
    rw [u₆.wellFormed.chain?_of_extends grows₇.classes (World.classIndex_lt ho₆)]
    exact hchain
  obtain ⟨j, hj, m, hm, hf⟩ := (u₇.wellFormed.resolves_field_iff hchain₇).mp hx
  exact hassigned j (List.mem_reverse.mpr hj) x m hm hf

omit hk in
/-- Operators give numbers, booleans and texts. -/
theorem sound_apply {op : BinaryOp} {a b v : Value} (h : op.apply a b = .ok v) : v.Sound w := by
  have onNumbers {x y : Float} (h : op.onNumbers x y = .ok v) : v.Sound w := by
    cases op <;> cases h <;> first | exact .number _ | exact .boolean _
  have comparison {r : Except Cause Bool} {f : Bool → Bool}
      (h : (do return .boolean (f (← r)) : Except Cause Value) = .ok v) : v.Sound w := by
    cases r with
    | error cause => cases h
    | ok b => cases h; exact .boolean _
  have arithmetic (h : (if op = .add ∧ (a.isText || b.isText) = true then
        (.ok (.text (a.toText ++ b.toText)) : Except Cause Value)
      else numericOperands op.symbol a b >>= fun p => op.onNumbers p.1 p.2) = .ok v) :
      v.Sound w := by
    split at h
    · cases h
      exact .text _
    · cases hr : numericOperands op.symbol a b with
      | error cause => rw [hr] at h; cases h
      | ok p => rw [hr] at h; exact onNumbers h
  cases op
  case eq => exact comparison (f := id) h
  case ne => exact comparison (f := not) h
  all_goals exact arithmetic h

theorem safe_evalBinary (op : BinaryOp) (left right : Expr) :
    Safe me w soundValue (evalBinary k op left right)
      fun note => evalBinary (k' note) op left right := by
  have operands : Safe me w soundValue
      (k.eval left >>= fun a => k.eval right >>= fun b => Run.ofExcept (op.apply a b))
      fun note => (k' note).eval left >>= fun a => (k' note).eval right >>= fun b =>
        Run.ofExcept (op.apply a b) :=
    (safe_eval hk left).bind fun _ _ a _ => (safe_eval hk right).bind fun _ _ b _ =>
      .ofExcept fun v hv => sound_apply hv
  have decided (u : World) : Safe me u soundValue
      (k.eval right >>= fun b => pure (.boolean b.isTruthy))
      fun note => (k' note).eval right >>= fun b => pure (.boolean b.isTruthy) :=
    (safe_eval hk right).bind fun _ _ _ _ => .pure (.boolean _)
  cases op
  case and =>
    refine (safe_eval hk left).bind fun u _ a _ => ?_
    cases a.isTruthy with
    | false => exact .pure (.boolean _)
    | true => exact decided u
  case or =>
    refine (safe_eval hk left).bind fun u _ a _ => ?_
    cases a.isTruthy with
    | false => exact decided u
    | true => exact .pure (.boolean _)
  all_goals exact operands

omit hk in
theorem sound_unary {op : UnaryOp} {a v : Value} (h : op.apply a = .ok v) : v.Sound w := by
  have numeric {operation : String} {f : Float → Float}
      (h : (do return .number (f (← a.toNumber operation)) : Except Cause Value) = .ok v) :
      v.Sound w := by
    cases hr : a.toNumber operation with
    | error cause => rw [hr] at h; cases h
    | ok x => rw [hr] at h; cases h; exact .number _
  cases op with
  | minus => exact numeric (f := Neg.neg) h
  | plus => exact numeric (f := id) h
  | not => cases h; exact .boolean _

theorem safe_evalStep (e : Expr) :
    Safe me w e.Answers (evalStep env k e) fun note => evalStep env.quiet (k' note) e := by
  -- every expression but `new` only has to give a sound value
  have plain {e : Expr} {x : Run Value} {y : Scribe → Run Value}
      (hnew : ∀ className line, e ≠ .new className line) (hx : Safe me w soundValue x y) :
      Safe me w e.Answers x y :=
    hx.weaken fun _ _ _ h => ⟨h, fun className line he => absurd he (hnew className line)⟩
  cases e with
  | new className line =>
    refine (safe_instantiate hk env className line).weaken fun _ _ _ h => ⟨h.1, ?_⟩
    exact fun _ _ _ => h.2
  | number x line => exact plain (by rintro _ _ ⟨⟩) (.pure (.number x))
  | text s line => exact plain (by rintro _ _ ⟨⟩) (.pure (.text s))
  | boolean b line => exact plain (by rintro _ _ ⟨⟩) (.pure (.boolean b))
  | null line => exact plain (by rintro _ _ ⟨⟩) (.pure .null)
  | var name line => exact plain (by rintro _ _ ⟨⟩) (.lookup name line)
  | unary op e line =>
    exact plain (by rintro _ _ ⟨⟩) ((safe_eval hk e).bind fun _ _ _ _ =>
      .ofExcept fun _ hv => sound_unary hv)
  | binary op left right line => exact plain (by rintro _ _ ⟨⟩) (safe_evalBinary hk op left right)
  | call f args line => exact plain (by rintro _ _ ⟨⟩) (safe_callFunction hk env f args line)
  | member target name line =>
    exact plain (by rintro _ _ ⟨⟩) ((safe_eval hk target).bind fun _ _ _ hv =>
      safe_readMember hv name line)
  | methodCall target name args line =>
    exact plain (by rintro _ _ ⟨⟩) (safe_callMember hk env target name args line)
  | superCall name args line =>
    exact plain (by rintro _ _ ⟨⟩) (safe_callSuper hk env name args line)

theorem safe_assignMember (target : Expr) (member : String) (value : Expr) (line : Nat) :
    Safe me w anyEnd (assignMember k target member value line)
      fun note => assignMember (k' note) target member value line := by
  refine (safe_eval hk target).bind fun u _ object hobject => ?_
  refine (safe_eval hk value).bind fun u' grows v hv => ?_
  cases object with
  | object o =>
    have ho := grows.mem (Value.Sound.object hobject o .whole)
    refine (Safe.resolve (World.classIndex_lt ho) member).bind fun u'' grows' r hr => ?_
    rcases r with _ | ⟨owner, (⟨x, a, e, l⟩ | ⟨x, a, ps, b, v', ov, l⟩)⟩
    · exact .faultAt _ _
    · have hfield : u''.classes.Resolves Member.isField o.classIndex member :=
        u''.wellFormed.resolves_iff.mpr ⟨_, _, hr, rfl⟩
      exact (Safe.writeField (grows'.mem ho) hfield (Value.Sound.mono hv grows')).weaken
        fun _ _ _ _ => trivial
    · exact .faultAt _ _
  | _ => exact .faultAt _ _

theorem safe_execSimple {s : Simple} (hs : Unreserved s.assigned) :
    Safe me w anyEnd (execSimple env k s) fun note => execSimple env.quiet (k' note) s := by
  refine Safe.atLine _ ?_
  cases s with
  | assign name value line =>
    exact (safe_eval hk value).bind fun _ _ _ hv =>
      .assign env (Frame.Sound.ne_this hs List.mem_cons_self) hv
  | assignMember target member value line => exact safe_assignMember hk target member value line
  | expr value line => exact (safe_eval hk value).bind fun _ _ _ _ => .pure trivial

theorem safe_evalCondition (condition : Expr) :
    Safe me w anyEnd (evalCondition k condition) fun note => evalCondition (k' note) condition :=
  (safe_eval hk condition).bind fun _ _ _ _ => .pure trivial

omit hk in
/-- One round after another, each in the world that the last has reached. -/
theorem safe_loop {condition : Run Bool} {body : Run Outcome} {after : Run Unit}
    {condition' : Scribe → Run Bool} {body' : Scribe → Run Outcome} {after' : Scribe → Run Unit}
    (hc : ∀ w, Safe me w anyEnd condition condition')
    (hb : ∀ w, Safe me w Outcome.Sound body body') (ha : ∀ w, Safe me w anyEnd after after')
    {bound : Nat} {bound' : Scribe → Nat} (hbound : ∀ note, bound' note = bound) :
    Safe me w Outcome.Sound (loop condition body after bound)
      fun note => loop (condition' note) (body' note) (after' note) (bound' note) := by
  cases funext hbound
  clear hbound
  induction bound generalizing w with
  | zero => exact .stop trivial
  | succ bound ih =>
    refine (hc w).bind fun u _ b _ => ?_
    cases b with
    | false => exact .pure (by rintro v ⟨⟩)
    | true =>
      refine (hb u).bind fun u' _ outcome hout => ?_
      cases outcome with
      | breaking => exact .pure (by rintro v ⟨⟩)
      | returning v => exact .pure hout
      | normal => exact (ha u').bind fun _ _ _ _ => ih
      | continuing => exact (ha u').bind fun _ _ _ _ => ih

omit hk in
theorem safe_throwValue {v : Value} (hv : v.Sound w) :
    Safe me w Outcome.Sound (throwValue env v) fun _ => throwValue env.quiet v :=
  Safe.get (fun _ _ _ => rfl) fun _ _ _ =>
    (Safe.debug env _).bind fun _ grows _ _ => .stop (hv.mono grows)

theorem safe_handleRaised {handlers : Handlers} (hh : handlers.BindsNames)
    {result : Except (Value × List String) Outcome} (hr : Safe.Caught Outcome.Sound w result) :
    Safe me w (Safe.Caught Outcome.Sound) (handleRaised env k handlers result)
      fun note => handleRaised env.quiet (k' note) handlers result := by
  have caught (name : String) (body : Block) (v : Value) (hname : name ∉ Rule.keywords)
      (hbody : body.BindsNames) (hv : v.Sound w) :
      Safe me w (Safe.Caught Outcome.Sound)
        (do Run.debug env fun _ => "Caught " ++ Text.quoted v.toText ++ " into '" ++ name ++ "'"
            Run.assign env name v
            (k.execBlock body).attempt)
        (fun note => do
          Run.debug env.quiet fun _ => "Caught " ++ Text.quoted v.toText ++ " into '" ++ name ++ "'"
          Run.assign env.quiet name v
          ((k' note).execBlock body).attempt) := by
    refine (Safe.debug env _).bind fun u grows _ _ => ?_
    refine (Safe.assign env ?_ (hv.mono grows)).bind fun u' _ _ _ =>
      (safe_execBlock hk hbody).attempt
    rintro rfl
    exact hname Frame.Sound.this_ne
  unfold handleRaised
  rcases result with ⟨v, trace⟩ | outcome
  · cases handlers with
    | catchOnly name body =>
      exact caught name body v (hh.1 name (by simp [Handlers.caught?]))
        (hh.2 body (by simp [Handlers.bodies])) hr
    | finallyOnly body => exact .pure hr
    | catchFinally name body final =>
      exact caught name body v (hh.1 name (by simp [Handlers.caught?]))
        (hh.2 body (by simp [Handlers.bodies])) hr
  · exact .pure hr

theorem safe_execTry {body : Block} (hbody : body.BindsNames) {handlers : Handlers}
    (hh : handlers.BindsNames) :
    Safe me w Outcome.Sound (execTry env k body handlers)
      fun note => execTry env.quiet (k' note) body handlers := by
  refine (safe_execBlock hk hbody).attempt.bind fun u _ first hfirst => ?_
  refine (safe_handleRaised hk env hh hfirst).bind fun u' _ result hresult => ?_
  have resumed {u'' : World} (grows : u'.Grows u'') : Safe.Caught Outcome.Sound u'' result := by
    rcases result with ⟨v, trace⟩ | outcome
    · exact Value.Sound.mono hresult grows
    · exact fun v hv => (hresult v hv).mono grows
  cases hf : handlers.final? with
  | none => exact .resume hresult
  | some final =>
    have hfinal : final.BindsNames :=
      hh.2 final (by cases handlers <;> simp_all [Handlers.final?, Handlers.bodies])
    refine (safe_execBlock hk hfinal).bind fun u'' grows outcome hout => ?_
    cases outcome with
    | normal => exact .resume (resumed grows)
    | returning v => exact .pure hout
    | breaking => exact .pure hout
    | continuing => exact .pure hout

omit hk in
/-- A module that can be parsed binds no keyword. -/
theorem safe_parseLogged (source : String) :
    Safe me w (fun _ p => p.BindsNames) (parseLogged env source)
      fun _ => parseLogged env.quiet source := by
  have logged : Safe me w anyEnd (logTokens env (scan source).tokens)
      fun _ => logTokens env.quiet (scan source).tokens :=
    .forM (fun _ _ _ => .debug env _) _ (.refl w)
  refine logged.bind fun u _ _ _ => ?_
  cases (scan source).error with
  | some e => exact .stop trivial
  | none =>
    have hdepth : env.quiet.syntaxDepth = env.syntaxDepth := rfl
    simp only [hdepth]
    rcases hp : parseTokens env.syntaxDepth (scan source).tokens with (e | _) | p
    · exact .stop trivial
    · exact Safe.get (fun _ _ _ => rfl) fun _ _ _ => .stop trivial
    · exact .pure (parseTokens_bindsNames hp)

theorem safe_importModule (module : String) (line : Nat) :
    Safe me w Outcome.Sound (ClassScript.importModule env k module line)
      fun note => ClassScript.importModule env.quiet (k' note) module line := by
  have found : Safe me w anyEnd (findModule env module line)
      fun _ => findModule env.quiet module line := by
    change Safe me w anyEnd _ fun _ => findModule env module line
    rw [findModule]
    split
    · exact .faultAt _ _
    · exact .pure trivial
  refine found.bind fun _ _ found _ => Safe.get (fun _ _ _ => rfl) fun c _ _ => ?_
  refine (Safe.refuseIf _ _ _).bind fun _ _ _ _ => (Safe.debug env _).bind fun _ _ _ _ => ?_
  refine (safe_parseLogged env _).bind fun u _ program hprogram => ?_
  have frame (f : Frame) : (f.importing found.1).Sound u ∧ (f.importing found.1).self = none :=
    ⟨.outside rfl rfl rfl, rfl⟩
  refine (Safe.inFrame frame (safe_execAll hk hprogram)).bind fun _ _ outcome _ => ?_
  cases outcome with
  | normal => exact .pure (by rintro v ⟨⟩)
  | returning v => exact .pure (by rintro v ⟨⟩)
  | breaking => exact .faultAt _ _
  | continuing => exact .faultAt _ _

omit hk in
/-- The interfaces of a class are checked against members of its base. -/
theorem safe_checkInterface {d : ClassDef} (hbase : ∀ b ∈ d.base, b < w.classes.size) (line : Nat)
    (interface : String) :
    Safe me w anyEnd (checkInterface d line interface)
      fun _ => checkInterface d line interface := by
  refine Safe.get (fun _ _ _ => rfl) fun c _ _ => ?_
  cases c.interfaces.get? interface with
  | none => exact .faultAt _ _
  | some signatures =>
    refine .forM (fun u grows s => ?_) signatures (.refl w)
    have answer : Safe me u anyEnd (inherited d s.name) fun _ => inherited d s.name := by
      rw [inherited]
      split
      · exact .pure trivial
      · rename_i b hb
        exact (Safe.resolve (grows.lt_size (hbase b hb)) s.name).weaken fun _ _ _ _ => trivial
    exact answer.bind fun _ _ _ _ => .refuseIf _ _ _

omit hk in
theorem safe_baseIndex (base : Option String) (line : Nat) :
    Safe me w (fun u b => ∀ i ∈ b, i < u.classes.size) (baseIndex base line)
      fun _ => baseIndex base line := by
  cases base with
  | none => exact .pure (by rintro i ⟨⟩)
  | some b =>
    refine Safe.get (fun _ _ _ => rfl) fun c hc _ => ?_
    refine (Safe.ofExceptAt (P := fun u i => i < u.classes.size) line fun i hi => ?_).bind
      fun _ _ i hi => .pure (by rintro j ⟨⟩; exact hi)
    rw [hc.classes] at hi
    exact ClassTable.WellFormed.lt_size_of_lookup w.wellFormed hi

omit hk in
theorem safe_registerClass {d : ClassDef} (hd : d.Declared)
    (hbase : ∀ b ∈ d.base, b < w.classes.size) (line : Nat) :
    Safe me w anyEnd (registerClass env d line) fun _ => registerClass env.quiet d line := by
  refine Safe.get (fun _ _ _ => rfl) fun c hc _ => ?_
  cases hdef : c.classes.define d with
  | error cause => exact .stop trivial
  | ok p =>
    obtain ⟨index, t⟩ := p
    rw [hc.classes] at hdef
    have hwf := w.wellFormed.define hbase hdef
    have ext := ClassTable.WellFormed.extends_define hdef
    have declared (j : Nat) (d' : ClassDef) (hd' : t.classes[j]? = some d') : d'.Declared := by
      obtain ⟨_, _, rfl⟩ := ClassTable.WellFormed.define_eq hdef
      rw [Array.getElem?_push] at hd'
      split at hd'
      · cases hd'
        exact hd
      · exact w.declared j d' hd'
    have added : Safe me w anyEnd (modify fun ctx : Context => { ctx with classes := t })
        fun _ => modify fun ctx : Context => { ctx with classes := t } :=
      .silent (fun _ hc' hme => ⟨w.withClasses t hwf ext declared,
        w.grows_withClasses t hwf ext declared, hc'.withClasses hwf ext declared, hme, trivial⟩)
        fun _ _ _ => rfl
    have known {β : Type} (f : Nat × ClassTable → Run β) :
        Run.ofExceptAt line (.ok (index, t)) >>= f = f (index, t) := rfl
    simp only [known]
    exact added.bind fun _ _ _ _ => .debug env _

omit hk in
/-- A declared class has its members under their names, and a base that comes before it. -/
theorem safe_declareClass (name : String) (base : Option String) (interfaces : List String)
    {members : List Member} (hm : ∀ m ∈ members, m.BindsNames) (line : Nat) :
    Safe me w anyEnd (declareClass env name base interfaces members line)
      fun _ => declareClass env.quiet name base interfaces members line := by
  refine Safe.get (fun _ _ _ => rfl) fun _ _ _ => (Safe.refuseIf _ _ _).bind fun _ _ _ _ => ?_
  refine (safe_baseIndex base line).bind fun u _ b hb => ?_
  have hb' {u' : World} (grows : u.Grows u') : ∀ i ∈ b, i < u'.classes.size :=
    fun i hi => grows.lt_size (hb i hi)
  refine (Safe.forM (fun u' grows i => safe_checkInterface (hb' grows) line i) interfaces
    (.refl u)).bind fun u' grows _ _ => ?_
  exact safe_registerClass env (.ofMembers name b interfaces hm) (hb' grows) line

theorem safe_execStep {s : Stmt} (hs : s.BindsNames) :
    Safe me w Outcome.Sound (execStep env k s) fun note => execStep env.quiet (k' note) s := by
  have normal {u : World} : Outcome.Sound u .normal := by rintro v ⟨⟩
  have here : Unreserved s.binds := hs.here
  have bodies := Stmt.BindsNames.bodies hs
  cases s with
  | simple s => exact (safe_execSimple hk env here).bind fun _ _ _ _ => .pure normal
  | print value line =>
    exact (safe_eval hk value).bind fun _ _ _ _ => (Safe.write _).bind fun _ _ _ _ => .pure normal
  | conditional condition thenBranch elseBranch line =>
    refine (safe_evalCondition hk condition).bind fun u _ b _ => ?_
    cases b with
    | true => exact safe_execBlock hk (bodies _ (by simp [Stmt.bodies]))
    | false =>
      cases elseBranch with
      | none => exact .pure normal
      | some elseBranch => exact safe_execBlock hk (bodies _ (by simp [Stmt.bodies]))
  | whileLoop condition body line =>
    exact safe_loop (fun _ => safe_evalCondition hk condition)
      (fun _ => safe_execBlock hk (bodies _ (by simp [Stmt.bodies]))) (fun _ => .pure trivial)
      hk.bound
  | forLoop initializer condition iterator body line =>
    have hi : Unreserved initializer.assigned := fun x hx => here x (List.mem_append_left _ hx)
    have hu : Unreserved iterator.assigned := fun x hx => here x (List.mem_append_right _ hx)
    exact (safe_execSimple hk env hi).bind fun _ _ _ _ =>
      safe_loop (fun _ => safe_evalCondition hk condition)
        (fun _ => safe_execBlock hk (bodies _ (by simp [Stmt.bodies])))
        (fun _ => safe_execSimple hk env hu) hk.bound
  | breakLoop line => exact .pure (by rintro v ⟨⟩)
  | continueLoop line => exact .pure (by rintro v ⟨⟩)
  | function name params body line =>
    have hf : Function.BindsNames ⟨params, body⟩ := ⟨here, bodies _ (by simp [Stmt.bodies])⟩
    have added : Safe me w anyEnd
        (modify fun c => { c with functions := c.functions.insert name ⟨params, body⟩ })
        fun _ => modify fun c => { c with functions := c.functions.insert name ⟨params, body⟩ } :=
      .silent (fun _ hc hme => ⟨w, .refl w, hc.withFunction name hf, hme, trivial⟩) fun _ _ _ => rfl
    exact added.bind fun _ _ _ _ => .pure normal
  | returnValue value line =>
    cases value with
    | none => exact .pure (by rintro v hv; cases List.mem_singleton.mp hv; exact .null)
    | some e =>
      refine (safe_eval hk e).bind fun _ _ v hv => .pure ?_
      rintro v' hv'
      cases List.mem_singleton.mp hv'
      exact hv
  | classDecl name base interfaces members line =>
    have hm (m : Member) (hmem : m ∈ members) : m.BindsNames :=
      ⟨fun x hx => here x (List.mem_flatMap.mpr ⟨m, hmem, hx⟩),
        fun b hb => bodies b (List.mem_flatMap.mpr ⟨m, hmem, hb⟩)⟩
    exact (safe_declareClass env name base interfaces hm line).bind fun _ _ _ _ => .pure normal
  | interfaceDecl name methods line =>
    have added : Safe me w anyEnd
        (modify fun c => { c with interfaces := c.interfaces.insert name methods })
        fun _ => modify fun c => { c with interfaces := c.interfaces.insert name methods } :=
      .silent (fun _ hc hme => ⟨w, .refl w, hc.recast _ _ _ _ _, hme, trivial⟩) fun _ _ _ => rfl
    exact added.bind fun _ _ _ _ => .pure normal
  | tryBlock body handlers line =>
    exact safe_execTry hk env (bodies body (by simp [Stmt.bodies]))
      ⟨here, fun b hb => bodies b (by simp [Stmt.bodies, hb])⟩
  | throwValue value line => exact (safe_eval hk value).bind fun _ _ _ hv => safe_throwValue env hv
  | importModule module line => exact safe_importModule hk env module line

theorem safe_execProgram {p : Program} (hp : p.BindsNames) :
    Safe me w Outcome.Sound (k.execProgram p) fun note => (k' note).execProgram p := by
  refine (safe_execAll hk hp).bind fun u _ outcome hout => ?_
  cases outcome with
  | normal => exact .pure hout
  | returning v => exact .pure hout
  | breaking => exact .stop trivial
  | continuing => exact .stop trivial

end Rules

theorem safe_noted_eval {me : Option Instance} {w : World} {e : Expr} {x : Run Value}
    {y : Scribe → Run Value} (hx : Safe me w e.Answers x y) :
    Safe me w e.Answers x fun note => Run.noting note (.evaluating e) (.evaluated e) (y note) :=
  hx.noting trivial fun _ _ h => h

theorem safe_noted_exec {me : Option Instance} {w : World} {s : Stmt} {x : Run Outcome}
    {y : Scribe → Run Outcome} (hx : Safe me w Outcome.Sound x y) :
    Safe me w Outcome.Sound x fun note => Run.noting note (.executing s) (.executed s) (y note) :=
  hx.noting trivial fun _ _ h => h

/-- Evaluation is safe on every budget: by induction on the budget, one rule at a time. -/
theorem evaluators_safe (env : Environment) (n : Nat) :
    (evaluators env n).Safe fun note => noted env.quiet note n := by
  have exhausted {α : Type} {me : Option Instance} {w : World} {P : World → α → Prop} :
      Safe me w P (Run.stop .exhausted) fun _ => Run.stop .exhausted := .stop trivial
  induction n with
  | zero =>
    exact ⟨fun _ _ _ => safe_noted_eval exhausted, fun _ _ _ _ => safe_noted_exec exhausted,
      fun _ => rfl⟩
  | succ n ih =>
    exact ⟨fun _ _ e => safe_noted_eval (safe_evalStep ih env e),
      fun _ _ s hs => safe_noted_exec (.atLine s.line (safe_execStep ih env hs)), fun _ => rfl⟩

end ClassScript
