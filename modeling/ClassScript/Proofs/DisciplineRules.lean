import ClassScript.Proofs.CodeDiscipline

/-!
# Every rule of evaluation keeps to a discipline

One lemma for each rule: when the evaluation of the parts keeps to a discipline, so does that of the
whole. What a rule needs to know about the code it runs is the condition it is stated under, so that
there is a history even of code that breaks the discipline. With the step budget for the induction,
evaluation keeps to every discipline on every budget.
-/

namespace ClassScript

open Run

/-- Evaluation of the parts keeps to the discipline; `k'` keeps notes. -/
structure Evaluators.Obey (env : Environment) (D : Discipline) (k : Evaluators)
    (k' : Scribe → Evaluators) : Prop where
  eval (own : Nat → Prop) (e : Expr) :
    Obeys env D own (D.expr e) anyResult (k.eval e) fun note => (k' note).eval e
  exec (own : Nat → Prop) (l : Bool) (s : Stmt) :
    Obeys env D own (D.stmt l s) (D.Leaves l) (k.exec s) fun note => (k' note).exec s
  bound (note : Scribe) : (k' note).bound = k.bound

section Rules

variable {env : Environment} {D : Discipline} {own : Nat → Prop} {A : Prop}

namespace Builtin

theorem obeys_classNamed (v : Value) :
    Obeys env D own A anyResult (classNamed v) fun _ => classNamed v := by
  refine Obeys.get (fun _ _ _ => rfl) fun c => ?_
  split
  · exact .pure fun _ => trivial
  · exact .stop fun _ => ⟨D.ordinary rfl, by rintro n ⟨⟩⟩

theorem obeys_textList (texts : List String) :
    Obeys env D own A anyResult (textList texts) fun _ => textList texts :=
  Obeys.freshId.bind fun _ => .pure fun _ => trivial

theorem obeys_call (b : Builtin) (name : String) (args : List Value) {line : Nat}
    (hline : own line) :
    Obeys env D own A anyResult (b.call name args line) fun _ => b.call name args line := by
  unfold call
  split
  · rename_i v
    cases b with
    | print => exact (Obeys.write _).bind fun _ => .pure fun _ => trivial
    | input =>
      refine (Obeys.write _).bind fun _ => Obeys.readLine.bind fun line => ?_
      cases line with
      | none => exact .pure fun _ => trivial
      | some line => exact .pure fun _ => trivial
    | sqrt => exact (Obeys.ofExcept (.toNumber _ v)).bind fun _ => .pure fun _ => trivial
    | abs => exact (Obeys.ofExcept (.toNumber _ v)).bind fun _ => .pure fun _ => trivial
    | typeof => exact .pure fun _ => trivial
    | getMethods => exact (obeys_classNamed v).bind fun d => obeys_textList d.methodNames
    | getFields => exact (obeys_classNamed v).bind fun d => obeys_textList d.fieldNames
  · exact .faultAt (fun _ => D.ordinary rfl) hline

end Builtin

theorem obeys_checkDepth :
    Obeys env D own A anyResult (checkDepth env) fun _ => checkDepth env.quiet := by
  change Obeys env D own A anyResult (checkDepth env) fun _ => checkDepth env
  refine Obeys.get (fun _ _ _ => rfl) fun c => ?_
  by_cases h : env.callDepth ≤ c.frame.depth
  · simp only [if_pos h]
    exact .stop fun _ => trivial
  · simp only [if_neg h]
    exact .pure fun _ => trivial

theorem obeys_readMember (target : Value) (name : String) {line : Nat} (hline : own line) :
    Obeys env D own A anyResult (readMember target name line)
      fun _ => readMember target name line := by
  unfold readMember
  cases target with
  | object o =>
    refine (Obeys.resolve _ _).bind fun r => ?_
    rcases r with _ | ⟨owner, (_ | _)⟩
    · exact .faultAt (fun _ => D.ordinary rfl) hline
    · exact .readField o name
    · exact Obeys.freshId.bind fun _ => .pure fun _ => trivial
  | _ => exact .faultAt (fun _ => D.ordinary rfl) hline

theorem obeys_throwValue (h : A → D.raises) (v : Value) {l : Bool} :
    Obeys env D own A (D.Leaves l) (throwValue env v) fun _ => throwValue env.quiet v :=
  Obeys.get (fun _ _ _ => rfl) fun _ => (Obeys.debug _).bind fun _ => .stop fun hA => h hA.1.1

variable {k : Evaluators} {k' : Scribe → Evaluators} (hk : k.Obey env D k')

include hk

theorem obeys_evalAll (es : List Expr) :
    Obeys env D own (D.exprs es) anyResult (k.evalAll es) fun note => (k' note).evalAll es := by
  induction es with
  | nil => exact .pure fun _ => trivial
  | cons e es ih =>
    have first := (hk.eval own e).given fun h : D.exprs (e :: es) => h e List.mem_cons_self
    have rest := ih.given fun (h : D.exprs (e :: es)) e' he' => h e' (List.mem_cons_of_mem e he')
    exact first.bind fun _ => (rest.given And.left).bind fun _ => .pure fun _ => trivial

theorem obeys_execAll (l : Bool) (ss : List Stmt) :
    Obeys env D own (D.code l ss) (D.Leaves l) (k.execAll ss) fun note => (k' note).execAll ss := by
  induction ss with
  | nil => exact .pure fun _ => Discipline.leaves_of_not_control rfl
  | cons s ss ih =>
    have first := (hk.exec own l s).given fun h : D.code l (s :: ss) => h s List.mem_cons_self
    refine first.bind fun outcome => ?_
    cases outcome with
    | normal => exact ih.given fun h s' hs' => h.1 s' (List.mem_cons_of_mem s hs')
    | returning v => exact .pure And.right
    | breaking => exact .pure And.right
    | continuing => exact .pure And.right

theorem obeys_execBlock (l : Bool) (b : Block) :
    Obeys env D own (D.code l b.statements) (D.Leaves l) (k.execBlock b)
      fun note => (k' note).execBlock b :=
  obeys_execAll hk l b.statements

/-- Loop control that leaves a body is a fault, which a discipline that lets it leave allows. -/
theorem obeys_runBody (label : String) (body : Block) {line : Nat} (hline : own line) :
    Obeys env D own (D.code false body.statements) anyResult
      (runBody k label body line) fun note => runBody (k' note) label body line := by
  refine (obeys_execBlock hk false body).bind fun outcome => ?_
  cases outcome with
  | normal => exact .pure fun _ => trivial
  | returning v => exact .pure fun _ => trivial
  | breaking => exact .faultAt (fun h => Discipline.cause_of_escape h.2 rfl _) hline
  | continuing => exact .faultAt (fun h => Discipline.cause_of_escape h.2 rfl _) hline

theorem obeys_invoke (label : String) (f : Function) (args : List Value)
    (receiver : Option Receiver) {line : Nat} (hline : own line) :
    Obeys env D own (D.code false f.body.statements) anyResult
      (invoke env k label f args receiver line)
      fun note => invoke env.quiet (k' note) label f args receiver line := by
  refine (Obeys.refuseIf _ rfl hline).bind fun _ => obeys_checkDepth.bind fun _ => ?_
  refine Obeys.inFrame _ _ (.tracing ?_)
  exact (obeys_runBody hk label f.body hline).given fun h => h.1.1

theorem obeys_callFunction (name : String) (args : List Expr) {line : Nat} (hline : own line) :
    Obeys env D own (D.exprs args) anyResult (callFunction env k name args line)
      fun note => callFunction env.quiet (k' note) name args line := by
  simp only [callFunction]
  cases Builtin.ofName? name with
  | some b => exact (obeys_evalAll hk args).bind fun vs => Builtin.obeys_call b name vs hline
  | none =>
    refine Obeys.get (fun _ _ _ => rfl) fun c => ?_
    cases hf : c.functions.get? name with
    | none => exact .faultAt (fun _ => D.ordinary rfl) hline
    | some f =>
      refine ((obeys_evalAll hk args).given And.left).bind fun vs => ?_
      exact (obeys_invoke hk name f vs none hline).given fun h => h.1.2.code hf

theorem obeys_callMethod (o : Instance) (name : String) (args : List Value) {line : Nat}
    (hline : own line) :
    Obeys env D own A anyResult (callMethod env k o name args line)
      fun note => callMethod env.quiet (k' note) o name args line := by
  refine (Obeys.resolve _ _).bind fun r => ?_
  rcases r with _ | ⟨owner, (_ | ⟨x, a, ps, b, v, ov, l⟩)⟩
  · exact .faultAt (fun _ => D.ordinary rfl) hline
  · exact .faultAt (fun _ => D.ordinary rfl) hline
  · refine (Obeys.debug _).bind fun _ => ?_
    refine (obeys_invoke hk name ⟨ps, b⟩ args (some ⟨o, owner⟩) hline).given fun h => ?_
    exact (h.1.2 owner _ rfl).2 b (List.mem_singleton_self b)

theorem obeys_callMember (target : Expr) (name : String) (args : List Expr) {line : Nat}
    (hline : own line) :
    Obeys env D own (D.exprs (target :: args)) anyResult
      (callMember env k target name args line)
      fun note => callMember env.quiet (k' note) target name args line := by
  have object := (hk.eval own target).given
    (B := D.exprs (target :: args)) fun h => h target List.mem_cons_self
  refine object.bind fun v => (obeys_readMember v name hline).bind fun v => ?_
  cases v with
  | method id o method =>
    refine ((obeys_evalAll hk args).given fun h => ?_).bind fun vs => ?_
    · exact fun e he => h.1.1 e (List.mem_cons_of_mem target he)
    · exact obeys_callMethod hk o method vs hline
  | _ => exact .faultAt (fun _ => D.ordinary rfl) hline

theorem obeys_callSuper (name : String) (args : List Expr) {line : Nat} (hline : own line) :
    Obeys env D own (D.exprs args) anyResult (callSuper env k name args line)
      fun note => callSuper env.quiet (k' note) name args line := by
  refine Obeys.get (fun _ _ _ => rfl) fun c => ?_
  dsimp only
  cases c.frame.self with
  | none => exact .faultAt (fun _ => D.ordinary rfl) hline
  | some self =>
    cases c.frame.owner with
    | none => exact .faultAt (fun _ => D.ordinary rfl) hline
    | some owner =>
      refine (Obeys.classAt _).bind fun d => ?_
      cases d.base with
      | none => exact .faultAt (fun _ => D.ordinary rfl) hline
      | some base =>
        refine Obeys.get (fun _ _ _ => rfl) fun c' => ?_
        rcases hfound : c'.classes.findMethod? (some base) name with
          _ | (_ | ⟨owner', _ | ⟨x, a, ps, b, v, ov, l⟩⟩)
        · exact .stop fun _ => trivial
        · exact (Obeys.classAt _).bind fun _ =>
            .faultAt (fun _ => D.ordinary rfl) hline
        · exact (Obeys.classAt _).bind fun _ =>
            .faultAt (fun _ => D.ordinary rfl) hline
        · refine ((obeys_evalAll hk args).given fun h => h.1.1.1).bind fun vs => ?_
          refine (obeys_invoke hk _ ⟨ps, b⟩ vs (some ⟨self, owner'⟩) hline).given fun h => ?_
          exact (h.1.2.classes.findMethod? hfound).2 b (List.mem_singleton_self b)

theorem obeys_initializeFields (o : Instance) (members : List Member) :
    Obeys env D own (∀ m ∈ members, D.member m) anyResult (initializeFields k o members)
      fun note => initializeFields (k' note) o members := by
  induction members with
  | nil => exact .pure fun _ => trivial
  | cons m members ih =>
    have rest := ih.given fun (h : ∀ m' ∈ m :: members, D.member m') m' hm' =>
      h m' (List.mem_cons_of_mem m hm')
    rcases m with ⟨x, a, _ | e, l⟩ | ⟨x, a, ps, b, v, ov, l⟩
    · refine (Obeys.pure (Q := anyResult) fun _ => trivial).bind fun v => ?_
      exact (Obeys.writeField o x v).bind fun _ => rest.given fun h => h.1.1
    · refine ((hk.eval own e).given fun h => ?_).bind fun v => ?_
      · exact (h _ List.mem_cons_self).1 e (List.mem_singleton_self e)
      · exact (Obeys.writeField o x v).bind fun _ => rest.given fun h => h.1.1
    · exact rest

theorem obeys_initializeClasses (o : Instance) (indices : List Nat) :
    Obeys env D own A anyResult (initializeClasses k o indices)
      fun note => initializeClasses (k' note) o indices := by
  induction indices with
  | nil => exact .pure fun _ => trivial
  | cons i rest ih =>
    have owned : Obeys env D own A anyResult
        (modify fun c => { c with frame := { c.frame with owner := some i } })
        fun _ => modify fun c => { c with frame := { c.frame with owner := some i } } :=
      .step (fun _ => ⟨rfl, rfl⟩) (fun _ _ => trivial) fun _ _ _ => rfl
    refine owned.bind fun _ => (Obeys.classAt i).bind fun d => ?_
    refine ((obeys_initializeFields hk o d.members.values).given And.right).bind fun _ => ?_
    exact ih.given fun h => h.1.1.1

theorem obeys_instantiate (className : String) {line : Nat} (hline : own line) :
    Obeys env D own A anyResult (instantiate env k className line)
      fun note => instantiate env.quiet (k' note) className line := by
  refine Obeys.get (fun _ _ _ => rfl) fun c => ?_
  refine (Obeys.ofExceptAt (.lookup c.classes className) hline).bind fun index => ?_
  refine obeys_checkDepth.bind fun _ => (Obeys.classAt _).bind fun d => ?_
  refine (Obeys.allocate _ _).bind fun o => (Obeys.debug _).bind fun _ => ?_
  refine (Obeys.chain _).bind fun indices => ?_
  exact (Obeys.inFrame _ _ (obeys_initializeClasses hk o indices.reverse)).bind fun _ =>
    .pure fun _ => trivial

theorem obeys_evalBinary (op : BinaryOp) (left right : Expr) :
    Obeys env D own (D.expr left ∧ D.expr right) anyResult (evalBinary k op left right)
      fun note => evalBinary (k' note) op left right := by
  have first := (hk.eval own left).given (B := D.expr left ∧ D.expr right) And.left
  have second (a : Value) := (hk.eval own right).given
    (B := (D.expr left ∧ D.expr right) ∧ anyResult a) fun h => h.1.2
  have decided (a : Value) : Obeys env D own ((D.expr left ∧ D.expr right) ∧ anyResult a) anyResult
      (k.eval right >>= fun b => pure (Value.boolean b.isTruthy))
      fun note => (k' note).eval right >>= fun b => pure (Value.boolean b.isTruthy) :=
    (second a).bind fun _ => .pure fun _ => trivial
  have operands := first.bind fun a => (second a).bind fun b => .ofExcept (.binary op a b)
  cases op
  case and =>
    refine first.bind fun a => ?_
    cases a.isTruthy with
    | false => exact .pure fun _ => trivial
    | true => exact decided a
  case or =>
    refine first.bind fun a => ?_
    cases a.isTruthy with
    | false => exact decided a
    | true => exact .pure fun _ => trivial
  all_goals exact operands

theorem obeys_evalStep (e : Expr) :
    Obeys env D (fun n => e.line = n) (D.expr e) anyResult (evalStep env k e)
      fun note => evalStep env.quiet (k' note) e := by
  cases e with
  | number x line => exact .pure fun _ => trivial
  | text s line => exact .pure fun _ => trivial
  | boolean b line => exact .pure fun _ => trivial
  | null line => exact .pure fun _ => trivial
  | var name line => exact .lookup name rfl
  | unary op e line =>
    refine ((hk.eval _ e).given fun h => ?_).bind fun v => ?_
    · exact D.operands_of h e (List.mem_singleton_self e)
    · exact .ofExcept (.unary op v)
  | binary op left right line =>
    refine (obeys_evalBinary hk op left right).given fun h => ⟨?_, ?_⟩
    · exact D.operands_of h left List.mem_cons_self
    · exact D.operands_of h right (List.mem_cons_of_mem _ (List.mem_singleton_self _))
  | call f args line => exact (obeys_callFunction hk f args rfl).given D.operands_of
  | new className line => exact obeys_instantiate hk className rfl
  | member target name line =>
    refine ((hk.eval _ target).given fun h => ?_).bind fun v => ?_
    · exact D.operands_of h target (List.mem_singleton_self target)
    · exact obeys_readMember v name rfl
  | methodCall target name args line =>
    exact (obeys_callMember hk target name args rfl).given D.operands_of
  | superCall name args line => exact (obeys_callSuper hk name args rfl).given D.operands_of

theorem obeys_assignMember (target : Expr) (member : String) (value : Expr) {line : Nat}
    (hline : own line) :
    Obeys env D own (D.exprs [target, value]) anyResult
      (assignMember k target member value line)
      fun note => assignMember (k' note) target member value line := by
  have object := (hk.eval own target).given
    (B := D.exprs [target, value]) fun h => h target List.mem_cons_self
  refine object.bind fun o => ((hk.eval own value).given fun h => ?_).bind fun v => ?_
  · exact h.1 value (List.mem_cons_of_mem _ (List.mem_singleton_self _))
  cases o with
  | object o =>
    refine (Obeys.resolve _ _).bind fun r => ?_
    rcases r with _ | ⟨owner, (_ | _)⟩
    · exact .faultAt (fun _ => D.ordinary rfl) hline
    · exact .writeField _ _ _
    · exact .faultAt (fun _ => D.ordinary rfl) hline
  | _ => exact .faultAt (fun _ => D.ordinary rfl) hline

theorem obeys_execSimple (s : Simple) (hline : own s.line) :
    Obeys env D own (D.exprs s.exprs) anyResult (execSimple env k s)
      fun note => execSimple env.quiet (k' note) s := by
  refine Obeys.atLine hline ?_
  cases s with
  | assign name value line =>
    refine ((hk.eval own value).given fun h => ?_).bind fun v => .assign name v
    exact h value (List.mem_singleton_self value)
  | assignMember target member value line => exact obeys_assignMember hk target member value hline
  | expr value line =>
    refine ((hk.eval own value).given fun h => ?_).bind fun _ => .pure fun _ => trivial
    exact h value (List.mem_singleton_self value)

theorem obeys_evalCondition (condition : Expr) :
    Obeys env D own (D.expr condition) anyResult (evalCondition k condition)
      fun note => evalCondition (k' note) condition :=
  (hk.eval own condition).bind fun _ => .pure fun _ => trivial

omit hk in
/-- A loop ends with no loop control of its own: by induction on the rounds. -/
theorem obeys_loop {condition : Run Bool} {body : Run Outcome} {after : Run Unit}
    {condition' : Scribe → Run Bool} {body' : Scribe → Run Outcome} {after' : Scribe → Run Unit}
    (hc : Obeys env D own A anyResult condition condition')
    (hb : Obeys env D own A (D.Leaves true) body body')
    (ha : Obeys env D own A anyResult after after')
    {bound : Nat} {bound' : Scribe → Nat} (hbound : ∀ note, bound' note = bound) {l : Bool} :
    Obeys env D own A (D.Leaves l) (loop condition body after bound)
      fun note => loop (condition' note) (body' note) (after' note) (bound' note) := by
  cases funext hbound
  clear hbound
  induction bound with
  | zero => exact .stop fun _ => trivial
  | succ bound ih =>
    refine hc.bind fun b => ?_
    cases b with
    | false => exact .pure fun _ => Discipline.leaves_of_not_control rfl
    | true =>
      refine (hb.given And.left).bind fun outcome => ?_
      have again := (ha.given (B := (A ∧ anyResult true) ∧ D.Leaves true outcome)
        fun h => h.1.1).bind fun _ => ih.given fun h => h.1.1.1
      cases outcome with
      | breaking => exact .pure fun _ => Discipline.leaves_of_not_control rfl
      | returning v => exact .pure fun _ => Discipline.leaves_of_not_control rfl
      | normal => exact again
      | continuing => exact again

theorem obeys_handleRaised (l : Bool) (handlers : Handlers)
    (result : Except (Value × List String) Outcome) :
    Obeys env D own ((∀ b ∈ handlers.bodies, D.code l b.statements) ∧
        Obeys.Caught D (D.Leaves l) result) (Obeys.Caught D (D.Leaves l))
      (handleRaised env k handlers result)
      fun note => handleRaised env.quiet (k' note) handlers result := by
  unfold handleRaised
  rcases result with ⟨v, trace⟩ | outcome
  · cases hcaught : handlers.caught? with
    | none => exact .pure And.right
    | some h =>
      have hbody : h.2 ∈ handlers.bodies := by
        cases handlers <;> cases hcaught <;> exact List.mem_cons_self
      refine (Obeys.debug _).bind fun _ => (Obeys.assign h.1 v).bind fun _ => ?_
      exact ((obeys_execBlock hk l h.2).given fun code => code.1.1.1 h.2 hbody).attempt
  · exact .pure And.right

/-- However a `try` ends, its outcome is that of one of its bodies. -/
theorem obeys_execTry (l : Bool) (body : Block) (handlers : Handlers) :
    Obeys env D own (D.code l body.statements ∧ ∀ b ∈ handlers.bodies, D.code l b.statements)
      (D.Leaves l) (execTry env k body handlers)
      fun note => execTry env.quiet (k' note) body handlers := by
  refine ((obeys_execBlock hk l body).given And.left).attempt.bind fun first => ?_
  refine ((obeys_handleRaised hk l handlers first).given fun h => ⟨h.1.2, h.2⟩).bind
    fun result => ?_
  cases hfinal : handlers.final? with
  | none => exact .resume And.right
  | some final =>
    have hbody : final ∈ handlers.bodies := by
      cases handlers <;> cases hfinal <;> simp [Handlers.bodies]
    refine ((obeys_execBlock hk l final).given fun h => h.1.1.2 final hbody).bind
      fun outcome => ?_
    cases outcome with
    | normal => exact .resume fun h => h.1.2
    | returning v => exact .pure And.right
    | breaking => exact .pure And.right
    | continuing => exact .pure And.right

omit hk in
theorem obeys_parseLogged (source : String) :
    Obeys env D own A (fun p => parseSource env.syntaxDepth source = .ok p) (parseLogged env source)
      fun _ => parseLogged env.quiet source := by
  refine Obeys.bind (.forM (fun _ => .debug _) _) fun _ => ?_
  cases herror : (scan source).error with
  | some e => exact .stop fun _ => trivial
  | none =>
    have scanned : scan source = ⟨(scan source).tokens, none⟩ := by rw [← herror]
    have hts := tokenize_of_scan scanned
    have hdepth : env.quiet.syntaxDepth = env.syntaxDepth := rfl
    simp only [hdepth]
    rcases hp : parseTokens env.syntaxDepth (scan source).tokens with (_ | _) | program
    · exact .stop fun _ => trivial
    · exact Obeys.get (fun _ _ _ => rfl) fun _ => .stop fun _ => trivial
    · refine .pure fun _ => ?_
      rw [parseSource_of_tokenize hts, hp]
      rfl

/-- A module runs as code outside of every loop, whatever encloses its import. -/
theorem obeys_importModule (module : String) {line : Nat} (hline : own line) {l : Bool} :
    Obeys env D own (∀ path text p, modulePath? env module = some path →
        env.files.readText? path = some text → parseSource env.syntaxDepth text = .ok p →
        D.code false p.statements)
      (D.Leaves l) (importModule env k module line)
      fun note => importModule env.quiet (k' note) module line := by
  have found {A : Prop} :
      Obeys env D own A (fun m => modulePath? env module = some m.1.path ∧
          env.files.readText? m.1.path = some m.2)
        (findModule env module line) fun _ => findModule env.quiet module line := by
    change Obeys env D own A _ _ fun _ => findModule env module line
    rw [findModule]
    cases hfound : (modulePath? env module).bind fun path =>
        (env.files.readText? path).map (path, ·) with
    | none => exact .faultAt (fun _ => D.ordinary rfl) hline
    | some m =>
      obtain ⟨path, hpath, hread⟩ := Option.bind_eq_some_iff.mp hfound
      obtain ⟨text, htext, rfl⟩ := Option.map_eq_some_iff.mp hread
      exact .pure fun _ => ⟨hpath, htext⟩
  refine found.bind fun m => Obeys.get (fun _ _ _ => rfl) fun c => ?_
  refine (Obeys.refuseIf _ rfl hline).bind fun _ => (Obeys.debug _).bind fun _ => ?_
  refine (obeys_parseLogged m.2).bind fun program => ?_
  refine (Obeys.inFrame _ _ ((obeys_execAll hk false program.statements).given fun h => ?_)).bind
    fun outcome => ?_
  · obtain ⟨⟨⟨⟨⟨code, hpath, htext⟩, _⟩, _⟩, _⟩, hparse⟩ := h
    exact code _ _ _ hpath htext hparse
  · cases outcome with
    | normal => exact .pure fun _ => Discipline.leaves_of_not_control rfl
    | returning v => exact .pure fun _ => Discipline.leaves_of_not_control rfl
    | breaking =>
      exact .faultAt (fun h => Discipline.cause_of_escape h.2 rfl _) hline
    | continuing =>
      exact .faultAt (fun h => Discipline.cause_of_escape h.2 rfl _) hline

omit hk in
theorem obeys_checkInterface (d : ClassDef) {line : Nat} (hline : own line)
    (interface : String) :
    Obeys env D own A anyResult (checkInterface d line interface)
      fun _ => checkInterface d line interface := by
  refine Obeys.get (fun _ _ _ => rfl) fun c => ?_
  cases c.interfaces.get? interface with
  | none => exact .faultAt (fun _ => D.ordinary rfl) hline
  | some signatures =>
    refine .forM (fun s => ?_) signatures
    have answer {A' : Prop} : Obeys env D own A' anyResult (inherited d s.name)
        fun _ => inherited d s.name := by
      rw [inherited]
      split
      · exact .pure fun _ => trivial
      · exact (Obeys.resolve _ _).mono id fun _ _ _ => trivial
    exact answer.bind fun _ => .refuseIf _ rfl hline

omit hk in
theorem obeys_baseIndex (base : Option String) {line : Nat} (hline : own line) :
    Obeys env D own A anyResult (baseIndex base line) fun _ => baseIndex base line := by
  cases base with
  | none => exact .pure fun _ => trivial
  | some b =>
    exact Obeys.get (fun _ _ _ => rfl) fun c =>
      (Obeys.ofExceptAt (.lookup c.classes b) hline).bind fun _ =>
        .pure fun _ => trivial

omit hk in
theorem obeys_registerClass (d : ClassDef) {line : Nat} (hline : own line)
    (declared : A → ∃ l s, D.stmt l s ∧ s.DeclaresClass d) :
    Obeys env D own A anyResult (registerClass env d line)
      fun _ => registerClass env.quiet d line := by
  refine Obeys.get (fun _ _ _ => rfl) fun c => ?_
  refine (Obeys.ofExceptAt (.define c.classes d) hline).bind fun defined => ?_
  refine Obeys.bind (Q := anyResult) ?_ fun _ => .debug _
  refine .silent (fun c' h stores => ?_) fun _ _ _ => rfl
  obtain ⟨⟨hA, before⟩, hdefined⟩ := h
  exact ⟨⟨stores.functions, before.classes.define (declared hA) hdefined⟩, trivial⟩

omit hk in
theorem obeys_declareClass (name : String) (base : Option String) (interfaces : List String)
    (members : List Member) {line : Nat} (hline : own line) :
    Obeys env D own (∃ l, D.stmt l (.classDecl name base interfaces members line)) anyResult
      (declareClass env name base interfaces members line)
      fun _ => declareClass env.quiet name base interfaces members line := by
  refine Obeys.get (fun _ _ _ => rfl) fun c => ?_
  refine (Obeys.refuseIf _ rfl hline).bind fun _ => ?_
  refine (obeys_baseIndex base hline).bind fun b => ?_
  refine (Obeys.forM (obeys_checkInterface _ hline) interfaces).bind fun _ => ?_
  refine obeys_registerClass _ hline fun h => ?_
  obtain ⟨⟨⟨⟨⟨l, hs⟩, _⟩, _⟩, _⟩, _⟩ := h
  exact ⟨l, _, hs, base, b, interfaces, members, line, rfl, rfl⟩

/-- A statement, given that the module it imports, if it is an import, is disciplined. -/
theorem obeys_execStep (l : Bool) (s : Stmt) (c : Context) :
    Obeys env D (· ∈ s.lines) (D.stmt l s ∧ (c.event (.executing s)).ImportsCode env D)
      (D.Leaves l) (execStep env k s) fun note => execStep env.quiet (k' note) s := by
  have normal {own : Nat → Prop} {A : Prop} : Obeys env D own A (D.Leaves l) (pure Outcome.normal)
      fun _ => pure Outcome.normal := .pure fun _ => Discipline.leaves_of_not_control rfl
  have expr {e : Expr} (he : e ∈ s.exprs)
      (h : D.stmt l s ∧ (c.event (.executing s)).ImportsCode env D) : D.expr e :=
    D.exprs_of h.1 e he
  have body {b : Block} (hb : b ∈ s.bodies)
      (h : D.stmt l s ∧ (c.event (.executing s)).ImportsCode env D) :
      D.code (s.opensLoop l) b.statements :=
    D.inside h.1 b hb
  cases s with
  | simple s =>
    refine ((obeys_execSimple hk s (List.mem_singleton_self _)).given fun h => ?_).bind
      fun _ => normal
    exact D.exprs_of h.1
  | print value line =>
    exact ((hk.eval _ value).given (expr List.mem_cons_self)).bind fun _ =>
      (Obeys.write _).bind fun _ => normal
  | conditional condition thenBranch elseBranch line =>
    refine ((obeys_evalCondition hk condition).given (expr List.mem_cons_self)).bind fun b => ?_
    cases b with
    | true =>
      exact (obeys_execBlock hk l thenBranch).given fun h => body List.mem_cons_self h.1
    | false =>
      cases elseBranch with
      | none => exact normal
      | some elseBranch =>
        refine (obeys_execBlock hk l elseBranch).given fun h => body ?_ h.1
        exact List.mem_cons_of_mem _ (List.mem_singleton_self _)
  | whileLoop condition inner line =>
    refine obeys_loop ((obeys_evalCondition hk condition).given (expr List.mem_cons_self)) ?_
      (.pure fun _ => trivial) hk.bound
    exact (obeys_execBlock hk true inner).given (body List.mem_cons_self)
  | forLoop initializer condition iterator inner line =>
    have header (s : Simple) (hs : ∀ e ∈ s.exprs, e ∈ initializer.exprs ++ iterator.exprs)
        (hline : s.line ∈ [line, initializer.line, iterator.line]) :=
      (obeys_execSimple hk s hline).given
        fun (h : D.stmt l (.forLoop initializer condition iterator inner line)) e he =>
          D.exprs_of h e (List.mem_cons_of_mem _ (hs e he))
    have first := header initializer (fun e he => List.mem_append_left _ he) (by simp)
    have again := header iterator (fun e he => List.mem_append_right _ he) (by simp)
    refine (first.given And.left).bind fun _ => ?_
    refine obeys_loop ((obeys_evalCondition hk condition).given fun h => ?_) ?_
      (again.given fun h => h.1.1) hk.bound
    · exact expr List.mem_cons_self h.1
    · exact (obeys_execBlock hk true inner).given fun h => body List.mem_cons_self h.1
  | breakLoop line => exact .pure fun h => D.control h.1
  | continueLoop line => exact .pure fun h => D.control h.1
  | function name params inner line =>
    refine Obeys.bind (Q := anyResult) ?_ fun _ => normal
    refine .silent (fun c h stores => ⟨⟨fun {name' f} hf => ?_, stores.classes⟩, trivial⟩)
      fun _ _ _ => rfl
    change (c.functions.insert name ⟨params, inner⟩).get? name' = some f at hf
    by_cases hname : name = name'
    · subst hname
      rw [Bindings.get?_insert_self] at hf
      cases hf
      exact ⟨l, _, h.1, line, rfl⟩
    · rw [Bindings.get?_insert_of_ne _ _ hname] at hf
      exact stores.functions hf
  | returnValue value line =>
    cases value with
    | none => exact .pure fun _ => Discipline.leaves_of_not_control rfl
    | some e =>
      exact ((hk.eval _ e).given (expr List.mem_cons_self)).bind fun _ =>
        .pure fun _ => Discipline.leaves_of_not_control rfl
  | classDecl name base interfaces members line =>
    refine ((obeys_declareClass name base interfaces members (List.mem_singleton_self line)).given
      fun h => ?_).bind fun _ => normal
    exact ⟨l, h.1⟩
  | interfaceDecl name methods line =>
    refine Obeys.bind (Q := anyResult) ?_ fun _ => normal
    exact .step (fun _ => ⟨rfl, rfl⟩) (fun _ _ => trivial) fun _ _ _ => rfl
  | tryBlock inner handlers line =>
    refine (obeys_execTry hk l inner handlers).given fun h => ⟨?_, fun b hb => ?_⟩
    · exact body List.mem_cons_self h
    · exact body (List.mem_cons_of_mem _ hb) h
  | throwValue value line =>
    refine ((hk.eval _ value).given (expr List.mem_cons_self)).bind fun v => ?_
    exact obeys_throwValue (fun h => D.throws h.1.1) v
  | importModule module line =>
    refine (obeys_importModule hk module (List.mem_singleton_self line)).given fun h => ?_
    exact fun path text p => h.2 module line path text p rfl

end Rules

/-- Evaluation keeps to every discipline on every budget: by induction on the budget. -/
theorem evaluators_obey (env : Environment) (D : Discipline) (n : Nat) :
    (evaluators env n).Obey env D fun note => noted env.quiet note n := by
  have exhausted {α : Type} {own : Nat → Prop} {A : Prop} {Q : α → Prop} :
      Obeys env D own A Q (Run.stop .exhausted) fun _ => Run.stop .exhausted :=
    .stop fun _ => trivial
  -- the lines of a node are blamed by the moment after it
  have evaluation {own : Nat → Prop} {e : Expr} {x : Run Value} {y : Scribe → Run Value}
      (h : Obeys env D (fun n => e.line = n) (D.expr e) anyResult x y) :
      Obeys env D own (D.expr e) anyResult x
        fun note => Run.noting note (.evaluating e) (.evaluated e) (y note) :=
    .noting (fun _ _ hf hn => ⟨rfl, hf, hn⟩) (fun he => ⟨he, fun _ => he⟩) fun _ =>
      h.given And.left
  have execution {own : Nat → Prop} {l : Bool} {s : Stmt} {x : Run Outcome}
      {y : Scribe → Run Outcome}
      (h : ∀ c : Context, Obeys env D (· ∈ s.lines)
        (D.stmt l s ∧ (c.event (.executing s)).ImportsCode env D) (D.Leaves l) x y) :
      Obeys env D own (D.stmt l s) (D.Leaves l) x
        fun note => Run.noting note (.executing s) (.executed s) (y note) :=
    .noting (fun _ _ hf hn => ⟨rfl, hf, hn⟩) (fun hs => ⟨⟨l, hs⟩, fun _ => ⟨l, hs⟩⟩) h
  induction n with
  | zero =>
    exact ⟨fun _ _ => evaluation exhausted, fun _ _ _ => execution fun _ => exhausted,
      fun _ => rfl⟩
  | succ n ih =>
    have step (l : Bool) (s : Stmt) (c : Context) :=
      (obeys_execStep ih l s c).atLine s.line_mem_lines
    exact ⟨fun _ e => evaluation (obeys_evalStep ih e), fun _ l s => execution (step l s),
      fun _ => rfl⟩

/-- Loop control at the end of a program is a fault without a line; all others come from the
statements of the program. -/
theorem obeys_execProgram (env : Environment) (D : Discipline) (n : Nat) (p : Program) :
    Obeys env D (fun _ => False) (D.code false p.statements) anyResult (execProgram env n p)
      fun note => (noted env.quiet note n).execProgram p := by
  refine (obeys_execAll (evaluators_obey env D n) false p.statements).bind fun outcome => ?_
  have escape (outcome : Outcome) (control : outcome.isLoopControl = true)
      (h : D.code false p.statements ∧ D.Leaves false outcome) :
      D.Allows (fun _ _ => False) (.fault (.ofCause .loopControlAtTop)) :=
    ⟨Discipline.cause_of_escape h.2 control _, by rintro n ⟨⟩⟩
  cases outcome with
  | normal => exact .pure fun _ => trivial
  | returning v => exact .pure fun _ => trivial
  | breaking => exact .stop (escape .breaking rfl)
  | continuing => exact .stop (escape .continuing rfl)

/-- The report of a run is that of a success, or of a stop with the given property. -/
def Report.Shows (P : Stop → Prop) (r : Report) : Prop :=
  (∃ output v, r = .success output v) ∨
    ∃ output source stop, r = .ofStop output source stop ∧ P stop

theorem Report.Shows.mono {P Q : Stop → Prop} {r : Report} (h : r.Shows P)
    (sub : ∀ stop, P stop → Q stop) : r.Shows Q := by
  rcases h with success | ⟨output, source, stop, hr, hstop⟩
  · exact Or.inl success
  · exact Or.inr ⟨output, source, stop, hr, sub stop hstop⟩

/-- Parsing gives a tree, or it stops because the source has none or nests too deep. It changes no
more than the debug log. -/
theorem parseLogged_result (env : Environment) (source : String) (c : Context) :
    ∃ log, (∃ p, parseLogged env source c = (.ok p, { c with log }) ∧
        parseSource env.syntaxDepth source = .ok p) ∨
      ∃ stop, parseLogged env source c = (.error stop, { c with log }) ∧
        ((∃ e, stop = .malformed e) ∨ ∃ calls, stop = .overflow calls) := by
  rw [parseLogged, Run.bind_apply, logTokens_apply]
  rcases hscan : scan source with ⟨ts, _ | e⟩
  · have hts := tokenize_of_scan hscan
    rcases hp : parseTokens env.syntaxDepth ts with (e | _) | p
    · exact ⟨_, Or.inr ⟨_, rfl, Or.inl ⟨_, rfl⟩⟩⟩
    · exact ⟨_, Or.inr ⟨_, rfl, Or.inr ⟨_, rfl⟩⟩⟩
    · refine ⟨_, Or.inl ⟨p, rfl, ?_⟩⟩
      rw [parseSource_of_tokenize hts, hp]
      rfl
  · exact ⟨_, Or.inr ⟨_, rfl, Or.inl ⟨_, rfl⟩⟩⟩

/-- A run keeps to a discipline: if the stored code, the source and the modules it imports do, so
does the code that it runs and the code stored afterwards. The report is of no stop that is not
allowed, and a line that it gives is blamed by an event. -/
theorem Session.run_obeys {D : Discipline} {s : Session} (stores : s.context.Stores D)
    {debug : Bool} {source : String}
    (code : ∀ p, parseSource s.limits.syntaxDepth source = .ok p → D.code false p.statements)
    (imports : ∀ events, s.Passes debug source events →
      ∀ ev ∈ events, ev.ImportsCode (s.environment debug) D) :
    (s.run debug source).2.context.Stores D ∧ ∃ events, s.Passes debug source events ∧
      (s.run debug source).1.Shows (D.Allows (Traced (fun _ => False) events)) ∧
      ∀ ev ∈ events, ev.moment.Keeps D := by
  obtain ⟨log, ⟨p, hparse, hp⟩ | ⟨stop, hparse, refused⟩⟩ :=
    parseLogged_result (s.environment debug) source s.fresh
  · obtain ⟨inner, history, kept⟩ :=
      obeys_execProgram (s.environment debug) D s.limits.steps p { s.fresh with log }
    rcases hexec : execProgram (s.environment debug) s.limits.steps p { s.fresh with log } with
      ⟨result, c⟩
    have passes := Passes.executed hparse hexec history
    have among (ev : Event) (hev : ev ∈ inner) :
        ev ∈ s.fresh.event .began :: (inner ++ [c.event (.ended result)]) :=
      List.mem_cons_of_mem _ (List.mem_append_left _ hev)
    obtain ⟨after, ended, keeps⟩ := kept (code p hp)
      (fun ev hev _ => imports _ passes ev (among ev hev)) (stores.of_same rfl rfl)
    rw [hexec] at after ended
    have keeps' : ∀ ev ∈ s.fresh.event .began :: (inner ++ [c.event (.ended result)]),
        ev.moment.Keeps D := by
      refine List.forall_mem_cons.mpr ⟨trivial, List.forall_mem_append.mpr ⟨keeps, ?_⟩⟩
      exact List.forall_mem_singleton.mpr trivial
    simp only [Session.run, hparse, hexec]
    rcases result with stop | (_ | v | _ | _)
    · have allowed := Discipline.Allows.mono ended fun _ _ h => h.mono among
      exact ⟨after.of_same rfl rfl, _, passes, Or.inr ⟨_, _, stop, rfl, allowed⟩, keeps'⟩
    all_goals exact ⟨after.of_same rfl rfl, _, passes, Or.inl ⟨_, _, rfl⟩, keeps'⟩
  · have passes := Passes.refused hparse
    have allowed (line : Cause → Nat → Prop) : D.Allows line stop := by
      rcases refused with ⟨e, rfl⟩ | ⟨calls, rfl⟩ <;> trivial
    simp only [Session.run, hparse]
    refine ⟨stores.of_same rfl rfl, _, passes, Or.inr ⟨_, _, stop, rfl, allowed _⟩, ?_⟩
    exact List.forall_mem_cons.mpr ⟨trivial, List.forall_mem_singleton.mpr trivial⟩

namespace Session

/-- To run the source in this session is to run disciplined code: its own, if it has a tree, and
that of every module that it imports on the way. -/
structure RunsCode (s : Session) (D : Discipline) (debug : Bool) (source : String) : Prop where
  code : ∀ p, parseSource s.limits.syntaxDepth source = .ok p → D.code false p.statements
  imports : ∀ events, s.Passes debug source events →
    ∀ ev ∈ events, ev.ImportsCode (s.environment debug) D

/-- A session that has come from its start by runs of disciplined code. Between two runs the module
files, the place they are looked up in and the limits may change. -/
inductive Kept (D : Discipline) : Session → Prop
  | start (files : Files) (directory : Option String) (captures : Bool) (input : String) :
    Kept D (start files directory captures input)
  | change {s : Session} (files : Files) (directory : Option String) (captures : Bool)
    (limits : Limits) : Kept D s → Kept D { s with files, directory, captures, limits }
  | run {s : Session} {debug : Bool} {source : String} :
    Kept D s → s.RunsCode D debug source → Kept D (s.run debug source).2

/-- All the code that such a session stores is disciplined: by induction over its runs. -/
theorem Kept.stores {D : Discipline} {s : Session} (h : s.Kept D) : s.context.Stores D := by
  induction h with
  | start files directory captures input => exact Context.stores_initial D input
  | change files directory captures limits _ ih => exact ih
  | run _ code ih => exact (run_obeys ih code.code code.imports).1

end Session

end ClassScript
