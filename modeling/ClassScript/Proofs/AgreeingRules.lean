import ClassScript.Proofs.AgreeingRuns
import ClassScript.Proofs.History
import ClassScript.Proofs.ParsedSources

/-!
# No rule of evaluation looks at a blurred detail

One lemma for each rule: when the evaluation of parts of a tree agrees with that of parts that are
the same up to a blur, the evaluation of the whole agrees with that of the blurred whole. A rule
uses its line for nothing but the faults it reports, and the modifiers of a member for nothing. With
the step budget for the induction, evaluation agrees on every budget.

Code that a context stores, such as the body of a function, is met on both sides with details of its
own, and so are the modules that both sides import, which need not be the same text.
-/

namespace ClassScript

open Run

/-- The same text, or texts with trees that are the same up to the blur. -/
inductive SourcesAlike (b : Blur) (depth : Nat) : String → String → Prop
  | same (text : String) : SourcesAlike b depth text text
  | trees {text text' : String} {p p' : Program} (hp : parseSource depth text = .ok p)
      (hp' : parseSource depth text' = .ok p') (same : p.blur b = p'.blur b) :
      SourcesAlike b depth text text'

/-- Environments that differ in modules at most, which are alike. -/
structure Environment.Alike (b : Blur) (env env' : Environment) : Prop where
  directory : env.directory = env'.directory
  callDepth : env.callDepth = env'.callDepth
  syntaxDepth : env.syntaxDepth = env'.syntaxDepth
  debug : env.debug = env'.debug
  modules {module : String} {path : List String} : modulePath? env module = some path →
    Option.Rel (SourcesAlike b env.syntaxDepth) (env.files.readText? path)
      (env'.files.readText? path)
  /-- The debug log shows where a module is found and what it is made of. -/
  logged : b.log = true → env.files = env'.files

theorem Environment.Alike.refl (b : Blur) (env : Environment) : env.Alike b env where
  directory := rfl
  callDepth := rfl
  syntaxDepth := rfl
  debug := rfl
  modules {_ path} _ := by
    cases env.files.readText? path with
    | none => exact .none
    | some text => exact .some (.same text)
  logged _ := rfl

/-- Trees that are the same up to the blur are evaluated alike. -/
structure Evaluators.AgreeUpTo (b : Blur) (k k' : Evaluators) : Prop where
  eval {e e' : Expr} : e.blur b = e'.blur b → Agree b Eq (k.eval e) (k'.eval e')
  exec {s s' : Stmt} : s.blur b = s'.blur b → Agree b Eq (k.exec s) (k'.exec s')
  bound : k.bound = k'.bound

variable {b : Blur}

namespace Builtin

theorem agree_classNamed (v : Value) :
    Agree b (fun c d => c.blur b = d.blur b) (classNamed v) (classNamed v) := by
  refine Agree.get fun c d same => ?_
  have found := Context.classNamed_of_same same v.toText
  generalize c.classes.get? v.toText = k, d.classes.get? v.toText = k' at found ⊢
  cases found with
  | none => exact .stop rfl
  | some h => exact .pure h

theorem agree_textList (texts : List String) : Agree b Eq (textList texts) (textList texts) :=
  Agree.freshId.bind fun _ => .pure rfl

theorem agree_listNames {sort : Member → Bool} (hsort : ∀ m, sort (m.blur b) = sort m)
    (v : Value) :
    Agree b Eq (classNamed v >>= fun c => textList ((c.members.values.filter sort).map Member.name))
      (classNamed v >>= fun c => textList ((c.members.values.filter sort).map Member.name)) := by
  refine (agree_classNamed v).bindWith fun c d same => ?_
  rw [← c.names_blur b hsort, same, d.names_blur b hsort]
  exact agree_textList _

theorem agree_call (f : Builtin) (name : String) (args : List Value) {line line' : Nat}
    (hl : b.line line = b.line line') :
    Agree b Eq (f.call name args line) (f.call name args line') := by
  unfold call
  split
  · rename_i v
    cases f with
    | print => exact (Agree.write _).bind fun _ => .pure rfl
    | input =>
      refine (Agree.write _).bind fun _ => Agree.readLine.bind fun line => ?_
      cases line <;> exact .pure rfl
    | sqrt => exact (Agree.ofExcept _).bind fun _ => .pure rfl
    | abs => exact (Agree.ofExcept _).bind fun _ => .pure rfl
    | typeof => exact .pure rfl
    | getMethods => exact agree_listNames (Member.isMethod_blur b) v
    | getFields => exact agree_listNames (Member.isField_blur b) v
  · exact .faultAt _ hl

end Builtin

section Classes

variable {line line' : Nat} (hl : b.line line = b.line line')

theorem agree_inherited (c : ClassDef) (name : String) :
    Agree b (Resolution.Alike b) (inherited c name) (inherited (c.blur b) name) := by
  have base : (c.blur b).base = c.base := rfl
  simp only [inherited, base]
  cases c.base with
  | none => exact .pure .notFound
  | some base => exact .resolve base name

/-- What is found has the same number of parameters. -/
theorem arity_implementation? (own : Option Member) {r r' : Resolution} (h : r.Alike b r') :
    (implementation? (own.map (Member.blur b)) r').map Member.arity =
      (implementation? own r).map Member.arity := by
  rcases own with _ | (_ | _) <;> rcases h with _ | ⟨owner, _ | _⟩ <;> rfl

include hl

theorem agree_readMember (target : Value) (name : String) :
    Agree b Eq (readMember target name line) (readMember target name line') := by
  unfold readMember
  cases target with
  | object o =>
    refine (Agree.resolve o.classIndex name).bindWith fun r r' hr => ?_
    rcases hr with _ | ⟨owner, hm⟩
    · exact .faultAt _ hl
    · cases hm with
      | field => exact .readField o name
      | method => exact Agree.freshId.bind fun _ => .pure rfl
  | _ => exact .faultAt _ hl

theorem agree_checkSignature (c : ClassDef) (interface : String) {s s' : Signature}
    (same : s.blur b = s'.blur b) :
    Agree b Eq (checkSignature c interface line s)
      (checkSignature (c.blur b) interface line' s') := by
  obtain ⟨name, params, l⟩ := s
  obtain ⟨name', params', l'⟩ := s'
  obtain ⟨rfl, rfl, -⟩ := Signature.mk.inj same
  refine (agree_inherited c name).bindWith fun r r' hr => ?_
  have own : (c.blur b).members.get? name = (c.members.get? name).map (Member.blur b) :=
    Bindings.get?_mapValues _ _ _
  have refuses (found : Option Member) :
      (found.all fun m => m.arity != params.length) =
        (found.map Member.arity).all fun n => n != params.length := by
    cases found <;> rfl
  simp only [requireMethod, refuses, own, arity_implementation? _ hr]
  exact .refuseIf _ _ hl

theorem agree_checkInterface (c : ClassDef) (interface : String) :
    Agree b Eq (checkInterface c line interface) (checkInterface (c.blur b) line' interface) := by
  refine Agree.get fun ctx ctx' same => ?_
  have found := Context.interface_of_same same interface
  generalize ctx.interfaces.get? interface = ss, ctx'.interfaces.get? interface = ss' at found ⊢
  cases found with
  | none => exact .faultAt _ hl
  | some h => exact .forM (fun s s' hs => agree_checkSignature hl c interface hs) h

theorem agree_baseIndex (base : Option String) :
    Agree b Eq (baseIndex base line) (baseIndex base line') := by
  cases base with
  | none => exact .pure rfl
  | some base =>
    refine Agree.get fun c d same => ?_
    rw [Context.lookup_of_same same]
    exact (Agree.ofExceptAt _ hl).bind fun _ => .pure rfl

end Classes

section Rules

variable {env env' : Environment} (henv : env.Alike b env') {k k' : Evaluators}
  (hk : k.AgreeUpTo b k') {line line' : Nat}

section Environments

include henv

theorem agree_checkDepth : Agree b Eq (checkDepth env) (checkDepth env') := by
  refine Agree.get fun c d same => ?_
  rw [Context.frame_of_same same, henv.callDepth]
  by_cases h : env'.callDepth ≤ d.frame.depth
  · simp only [if_pos h]
    exact .stop rfl
  · simp only [if_neg h]
    exact .pure rfl

theorem agree_throwValue (v : Value) : Agree b Eq (throwValue env v) (throwValue env' v) := by
  refine Agree.get fun c d same => ?_
  rw [Context.frame_of_same same]
  exact (Agree.debug henv.debug fun _ => rfl).bind fun _ => .stop rfl

theorem agree_registerClass (hl : b.line line = b.line line') (c : ClassDef) :
    Agree b Eq (registerClass env c line) (registerClass env' (c.blur b) line') := by
  refine Agree.get fun ctx ctx' same => ?_
  refine (Agree.ofExceptAtWith (Context.define_of_same same c) hl).bindWith ?_
  rintro ⟨index, t⟩ ⟨index', t'⟩ h
  obtain ⟨rfl, table⟩ := Prod.mk.inj h
  refine (Agree.update fun ctx ctx' same => ?_).bind fun _ => .debug henv.debug fun _ => rfl
  change ({ ctx.blur b with classes := t.blur b } : Context) =
    { ctx'.blur b with classes := t'.blur b }
  rw [same, table]

theorem agree_declareClass (hl : b.line line = b.line line') (name : String)
    (base : Option String) (interfaces : List String) (members : List Member) :
    Agree b Eq (declareClass env name base interfaces members line)
      (declareClass env' name base interfaces (members.map (Member.blur b)) line') := by
  refine Agree.get fun c d same => ?_
  rw [Context.contains_of_same same]
  refine (Agree.refuseIf _ _ hl).bind fun _ => (agree_baseIndex hl base).bind fun index => ?_
  dsimp only
  rw [← ClassDef.blur_ofMembers]
  refine (Agree.forM (φ := id) (fun i i' (h : i = i') => ?_) rfl).bind fun _ =>
    agree_registerClass henv hl _
  rw [h]
  exact agree_checkInterface hl _ i'

theorem agree_logTokens (ts : List Token) : Agree b Eq (logTokens env ts) (logTokens env' ts) := by
  refine .forM (φ := id) (fun t t' (same : t = t') => ?_) rfl
  rw [same]
  exact .debug henv.debug fun _ => rfl

theorem agree_parseText (text : String) :
    Agree b Eq (parseLogged env text) (parseLogged env' text) := by
  refine (agree_logTokens henv _).bind fun _ => ?_
  cases (scan text).error with
  | some e => exact .stop rfl
  | none =>
    dsimp only
    rw [henv.syntaxDepth]
    rcases parseTokens env'.syntaxDepth (scan text).tokens with (e | _) | p
    · exact .stop rfl
    · refine Agree.get fun c d same => ?_
      rw [Context.frame_of_same same]
      exact .stop rfl
    · exact .pure rfl

/-- Sources that are alike have the same tree up to the blur, or no tree for the same reason. Where
the log is compared they have to be the same text. -/
theorem agree_parseLogged {text text' : String} (alike : SourcesAlike b env.syntaxDepth text text')
    (logged : b.log = true → text = text') :
    Agree b (fun p p' => p.blur b = p'.blur b) (parseLogged env text) (parseLogged env' text') := by
  have whole (text : String) : Agree b (fun p p' => p.blur b = p'.blur b)
      (parseLogged env text) (parseLogged env' text) :=
    (agree_parseText henv text).mono fun _ _ h => congrArg (Program.blur b) h
  cases hb : b.log with
  | true =>
    rw [logged hb]
    exact whole text'
  | false =>
    cases alike with
    | same => exact whole text
    | trees hp hp' same =>
      intro c d hcd
      obtain ⟨ts, hts, hparsed⟩ := parseSource_eq_ok hp
      obtain ⟨ts', hts', hparsed'⟩ := parseSource_eq_ok hp'
      rw [parseLogged_apply env hts, parseLogged_apply env' hts', ← henv.syntaxDepth, hparsed,
        hparsed']
      refine ⟨.ok same, ?_⟩
      calc Context.blur b { c with log := tokenLog env (ts.map Token.face) ++ c.log }
          = c.blur b := Context.blur_withLog hb c _
        _ = d.blur b := hcd
        _ = Context.blur b { d with log := tokenLog env' (ts'.map Token.face) ++ d.log } :=
          (Context.blur_withLog hb d _).symm

/-- The same module is found on both sides, in texts that are alike. -/
theorem agree_findModule (hl : b.line line = b.line line') (module : String) :
    Agree b (fun m m' => m.1 = m'.1 ∧ SourcesAlike b env.syntaxDepth m.2 m'.2 ∧
        (b.log = true → m.2 = m'.2))
      (findModule env module line) (findModule env' module line') := by
  have paths : modulePath? env module = modulePath? env' module := by
    rw [modulePath?, modulePath?, henv.directory]
  rw [findModule, findModule, ← paths]
  cases hpath : modulePath? env module with
  | none => exact .faultAt _ hl
  | some path =>
    have texts := henv.modules hpath
    have same (hb : b.log = true) : env.files.readText? path = env'.files.readText? path := by
      rw [henv.logged hb]
    dsimp only [Option.bind_some]
    generalize env.files.readText? path = text, env'.files.readText? path = text' at texts same ⊢
    cases texts with
    | none => exact .faultAt _ hl
    | some h => exact .pure ⟨rfl, h, fun hb => Option.some.inj (same hb)⟩

end Environments

section Parts

include hk

theorem agree_blurred (e : Expr) : Agree b Eq (k.eval e) (k'.eval (e.blur b)) :=
  hk.eval (e.blur_twice b).symm

theorem agree_evalAll {es es' : List Expr} (same : Expr.blurAll b es = Expr.blurAll b es') :
    Agree b Eq (k.evalAll es) (k'.evalAll es') := by
  rw [Expr.blurAll_eq_map, Expr.blurAll_eq_map] at same
  induction es, es', same using map_eq_induction with
  | nil => exact .pure rfl
  | cons e e' es es' head _ ih => exact (hk.eval head).bind fun _ => ih.bind fun _ => .pure rfl

theorem agree_execAll {ss ss' : List Stmt} (same : Stmt.blurAll b ss = Stmt.blurAll b ss') :
    Agree b Eq (k.execAll ss) (k'.execAll ss') := by
  rw [Stmt.blurAll_eq_map, Stmt.blurAll_eq_map] at same
  induction ss, ss', same using map_eq_induction with
  | nil => exact .pure rfl
  | cons s s' ss ss' head _ ih =>
    refine (hk.exec head).bind fun outcome => ?_
    cases outcome with
    | normal => exact ih
    | _ => exact .pure rfl

theorem agree_execBlock {body body' : Block} (same : body.blur b = body'.blur b) :
    Agree b Eq (k.execBlock body) (k'.execBlock body') := by
  obtain ⟨ss, l⟩ := body
  obtain ⟨ss', l'⟩ := body'
  exact agree_execAll hk (Block.mk.inj same).1

theorem agree_blurredBlock (body : Block) :
    Agree b Eq (k.execBlock body) (k'.execBlock (body.blur b)) :=
  agree_execBlock hk (body.blur_twice b).symm

theorem agree_runBody (hl : b.line line = b.line line') (label : String) {body body' : Block}
    (same : body.blur b = body'.blur b) :
    Agree b Eq (runBody k label body line) (runBody k' label body' line') := by
  refine (agree_execBlock hk same).bind fun outcome => ?_
  cases outcome with
  | normal => exact .pure rfl
  | returning v => exact .pure rfl
  | breaking => exact .faultAt _ hl
  | continuing => exact .faultAt _ hl

theorem agree_initializeFields (self : Instance) {members members' : List Member}
    (same : members.map (Member.blur b) = members'.map (Member.blur b)) :
    Agree b Eq (initializeFields k self members) (initializeFields k' self members') := by
  induction members, members', same using map_eq_induction with
  | nil => exact .pure rfl
  | cons m m' members members' head _ ih =>
    cases Member.alike_of_blur head with
    | method => exact ih
    | @field x _ _ e e' _ _ values =>
      have store (v : Value) := (Agree.writeField self x v).bind fun _ => ih
      cases rel_of_map_eq values with
      | none => exact (Agree.pure rfl).bind store
      | some value => exact (hk.eval value).bind store

theorem agree_initializeClasses (self : Instance) (indices : List Nat) :
    Agree b Eq (initializeClasses k self indices) (initializeClasses k' self indices) := by
  induction indices with
  | nil => exact .pure rfl
  | cons i indices ih =>
    have owned : Agree b Eq (modify fun c => { c with frame := { c.frame with owner := some i } })
        (modify fun c => { c with frame := { c.frame with owner := some i } }) :=
      .blind fun _ => rfl
    refine owned.bind fun _ => (Agree.classAt i).bindWith fun c c' same => ?_
    exact (agree_initializeFields hk self (ClassDef.of_same same).2.2).bind fun _ => ih

theorem agree_evalBinary (op : BinaryOp) (left right : Expr) :
    Agree b Eq (evalBinary k op left right) (evalBinary k' op (left.blur b) (right.blur b)) := by
  refine (agree_blurred hk left).bind fun v => ?_
  have second {f : Value → Run Value} (h : ∀ v, Agree b Eq (f v) (f v)) :
      Agree b Eq (k.eval right >>= f) (k'.eval (right.blur b) >>= f) :=
    (agree_blurred hk right).bind h
  cases op with
  | and =>
    dsimp only
    split
    · exact second fun _ => .pure rfl
    · exact .pure rfl
  | or =>
    dsimp only
    split
    · exact .pure rfl
    · exact second fun _ => .pure rfl
  | _ => exact second fun _ => .ofExcept _

theorem agree_assignMember (hl : b.line line = b.line line') (target : Expr) (member : String)
    (value : Expr) :
    Agree b Eq (assignMember k target member value line)
      (assignMember k' (target.blur b) member (value.blur b) line') := by
  refine (agree_blurred hk target).bind fun object => (agree_blurred hk value).bind fun v => ?_
  cases object with
  | object o =>
    refine (Agree.resolve o.classIndex member).bindWith fun r r' hr => ?_
    rcases hr with _ | ⟨owner, hm⟩
    · exact .faultAt _ hl
    · cases hm with
      | field => exact .writeField o member v
      | method => exact .faultAt _ hl
  | _ => exact .faultAt _ hl

theorem agree_evalCondition (condition : Expr) :
    Agree b Eq (evalCondition k condition) (evalCondition k' (condition.blur b)) :=
  (agree_blurred hk condition).bind fun _ => .pure rfl

omit hk in
/-- One round after another, as often on either side. -/
theorem agree_loop {condition condition' : Run Bool} {body body' : Run Outcome}
    {after after' : Run Unit} (hc : Agree b Eq condition condition') (hb : Agree b Eq body body')
    (ha : Agree b Eq after after') (bound : Nat) :
    Agree b Eq (loop condition body after bound) (loop condition' body' after' bound) := by
  induction bound with
  | zero => exact .stop rfl
  | succ bound ih =>
    refine hc.bind fun goes => ?_
    cases goes with
    | false => exact .pure rfl
    | true =>
      refine hb.bind fun outcome => ?_
      cases outcome with
      | breaking => exact .pure rfl
      | returning v => exact .pure rfl
      | normal => exact ha.bind fun _ => ih
      | continuing => exact ha.bind fun _ => ih

end Parts

include henv hk

theorem agree_invoke (hl : b.line line = b.line line') (label : String) (params : List String)
    {body body' : Block} (same : body.blur b = body'.blur b) (args : List Value)
    (receiver : Option Receiver) :
    Agree b Eq (invoke env k label ⟨params, body⟩ args receiver line)
      (invoke env' k' label ⟨params, body'⟩ args receiver line') := by
  refine (Agree.refuseIf _ _ hl).bind fun _ => (agree_checkDepth henv).bind fun _ => ?_
  exact .inFrame _ _ (.tracing (agree_runBody hk hl label same))

theorem agree_callFunction (hl : b.line line = b.line line') (name : String) (args : List Expr) :
    Agree b Eq (callFunction env k name args line)
      (callFunction env' k' name (Expr.blurAll b args) line') := by
  have values := agree_evalAll hk (Expr.blurAll_twice b args).symm
  simp only [callFunction]
  cases Builtin.ofName? name with
  | some f => exact values.bind fun vs => Builtin.agree_call f name vs hl
  | none =>
    refine Agree.get fun c d same => ?_
    have found := Context.function_of_same same name
    generalize c.functions.get? name = f, d.functions.get? name = f' at found ⊢
    cases found with
    | none => exact .faultAt _ hl
    | @some f f' h =>
      obtain ⟨params, body⟩ := f
      obtain ⟨params', body'⟩ := f'
      obtain ⟨rfl, hbody⟩ := Function.mk.inj h
      exact values.bind fun vs => agree_invoke henv hk hl name params hbody vs none

theorem agree_callMethod (hl : b.line line = b.line line') (o : Instance) (name : String)
    (args : List Value) :
    Agree b Eq (callMethod env k o name args line) (callMethod env' k' o name args line') := by
  refine (Agree.resolve o.classIndex name).bindWith fun r r' hr => ?_
  rcases hr with _ | ⟨owner, hm⟩
  · exact .faultAt _ hl
  · cases hm with
    | field => exact .faultAt _ hl
    | method x ps same =>
      exact (Agree.debug henv.debug fun _ => rfl).bind fun _ =>
        agree_invoke henv hk hl name ps same args _

theorem agree_callMember (hl : b.line line = b.line line') (target : Expr) (name : String)
    (args : List Expr) :
    Agree b Eq (callMember env k target name args line)
      (callMember env' k' (target.blur b) name (Expr.blurAll b args) line') := by
  refine (agree_blurred hk target).bind fun object => ?_
  refine (agree_readMember hl object name).bind fun v => ?_
  cases v with
  | method id o method =>
    exact (agree_evalAll hk (Expr.blurAll_twice b args).symm).bind fun vs =>
      agree_callMethod henv hk hl o method vs
  | _ => exact .faultAt _ hl

theorem agree_callSuper (hl : b.line line = b.line line') (name : String) (args : List Expr) :
    Agree b Eq (callSuper env k name args line)
      (callSuper env' k' name (Expr.blurAll b args) line') := by
  refine Agree.get fun c d same => ?_
  rw [Context.frame_of_same same]
  dsimp only
  cases d.frame.self with
  | none => exact .faultAt _ hl
  | some self =>
    cases d.frame.owner with
    | none => exact .faultAt _ hl
    | some owner =>
      refine (Agree.classAt owner).bindWith fun current current' hcurrent => ?_
      obtain ⟨hname, hbase, _⟩ := ClassDef.of_same hcurrent
      rw [hname, hbase]
      cases current'.base with
      | none => exact .faultAt _ hl
      | some base =>
        have missing : Agree b Eq
            (Run.classAt base >>= fun c =>
              (Run.faultAt (.undefinedMember c.name name) line : Run Value))
            (Run.classAt base >>= fun c => Run.faultAt (.undefinedMember c.name name) line') := by
          refine (Agree.classAt base).bindWith fun c c' hc => ?_
          rw [(ClassDef.of_same hc).1]
          exact .faultAt _ hl
        refine Agree.get fun c d same => ?_
        have found := Context.findMethod?_of_same same (some base) name
        generalize c.classes.findMethod? (some base) name = r,
          d.classes.findMethod? (some base) name = r' at found ⊢
        cases found with
        | none => exact .stop rfl
        | some h =>
          rcases Resolution.alike_of_blur h with _ | ⟨methodOwner, hm⟩
          · exact missing
          · cases hm with
            | field => exact missing
            | method x ps hbody =>
              exact (agree_evalAll hk (Expr.blurAll_twice b args).symm).bind fun vs =>
                agree_invoke henv hk hl _ ps hbody vs _

theorem agree_instantiate (hl : b.line line = b.line line') (className : String) :
    Agree b Eq (instantiate env k className line) (instantiate env' k' className line') := by
  refine Agree.get fun c d same => ?_
  rw [Context.lookup_of_same same]
  refine (Agree.ofExceptAt _ hl).bind fun index => (agree_checkDepth henv).bind fun _ => ?_
  refine (Agree.classAt index).bindWith fun c c' hc => ?_
  rw [(ClassDef.of_same hc).1]
  refine (Agree.allocate index _).bind fun self => ?_
  refine (Agree.debug henv.debug fun _ => rfl).bind fun _ => ?_
  refine (Agree.chain index).bind fun indices => ?_
  exact (Agree.inFrame _ _ (agree_initializeClasses hk self _)).bind fun _ => .pure rfl

theorem agree_evalStep (e : Expr) :
    Agree b Eq (evalStep env k e) (evalStep env' k' (e.blur b)) := by
  have place (l : Nat) : b.line l = b.line (b.line l) := (b.line_twice l).symm
  cases e with
  | number x line => exact .pure rfl
  | text s line => exact .pure rfl
  | boolean v line => exact .pure rfl
  | null line => exact .pure rfl
  | var name line => exact .lookup name (place line)
  | unary op e line => exact (agree_blurred hk e).bind fun _ => .ofExcept _
  | binary op left right line => exact agree_evalBinary hk op left right
  | call name args line => exact agree_callFunction henv hk (place line) name args
  | new className line => exact agree_instantiate henv hk (place line) className
  | member target name line =>
    exact (agree_blurred hk target).bind fun v => agree_readMember (place line) v name
  | methodCall target name args line =>
    exact agree_callMember henv hk (place line) target name args
  | superCall name args line => exact agree_callSuper henv hk (place line) name args

theorem agree_execSimple (s : Simple) :
    Agree b Eq (execSimple env k s) (execSimple env' k' (s.blur b)) := by
  have place (l : Nat) : b.line l = b.line (b.line l) := (b.line_twice l).symm
  cases s with
  | assign name value line =>
    exact .atLine (place line) ((agree_blurred hk value).bind fun v => .assign henv.debug name v)
  | assignMember target member value line =>
    exact .atLine (place line) (agree_assignMember hk (place line) target member value)
  | expr value line =>
    exact .atLine (place line) ((agree_blurred hk value).bind fun _ => .pure rfl)

theorem agree_handleRaised (catches : b.catches = true) (handlers : Handlers)
    (result : Except (Value × List String) Outcome) :
    Agree b Eq (handleRaised env k handlers result)
      (handleRaised env' k' (handlers.blur b) result) := by
  have noted (line : Unit → String) : Agree b Eq (Run.debug env line) (Run.debug env' line) :=
    .debug henv.debug fun _ => rfl
  have caught (v : Value) (name : String) (body : Block) :=
    (noted fun _ => "Caught " ++ Text.quoted v.toText ++ " into '" ++ name ++ "'").bind fun _ =>
      (Agree.assign henv.debug name v).bind fun _ => (agree_blurredBlock hk body).attempt
  rcases result with ⟨v, trace⟩ | outcome
  · cases handlers with
    | catchOnly name body =>
      rw [Handlers.blur, b.caughtName_of_catches catches, b.caughtBody_of_catches catches]
      exact caught v name body
    | finallyOnly body => exact .pure rfl
    | catchFinally name body final =>
      rw [Handlers.blur, b.caughtName_of_catches catches, b.caughtBody_of_catches catches]
      exact caught v name body
  · exact .pure rfl

omit henv hk in
theorem final?_blur (handlers : Handlers) :
    (handlers.blur b).final? = handlers.final?.map (Block.blur b) := by
  cases handlers <;> rfl

theorem agree_execTry (catches : b.catches = true) (body : Block) (handlers : Handlers) :
    Agree b Eq (execTry env k body handlers)
      (execTry env' k' (body.blur b) (handlers.blur b)) := by
  refine (agree_blurredBlock hk body).attempt.bind fun first => ?_
  refine (agree_handleRaised henv hk catches handlers first).bind fun result => ?_
  rw [final?_blur]
  cases handlers.final? with
  | none => exact .resume result
  | some final =>
    refine (agree_blurredBlock hk final).bind fun outcome => ?_
    cases outcome with
    | normal => exact .resume result
    | _ => exact .pure rfl

theorem agree_importModule (hl : b.line line = b.line line') (module : String) :
    Agree b Eq (importModule env k module line) (importModule env' k' module line') := by
  refine (agree_findModule henv hl module).bindWith fun found found' hfound => ?_
  obtain ⟨m, text⟩ := found
  obtain ⟨m', text'⟩ := found'
  obtain ⟨rfl, htexts, hlogged⟩ := hfound
  refine Agree.get fun c d same => ?_
  rw [Context.frame_of_same same]
  refine (Agree.refuseIf _ _ hl).bind fun _ => ?_
  refine (Agree.debug henv.debug fun hb => by rw [henv.logged hb]).bind fun _ => ?_
  refine (agree_parseLogged henv htexts hlogged).bindWith fun p p' hp => ?_
  have code := agree_execAll hk (congrArg Program.statements hp)
  refine (code.inFrame _ _).bind fun outcome => ?_
  cases outcome with
  | normal => exact .pure rfl
  | returning v => exact .pure rfl
  | breaking => exact .faultAt _ hl
  | continuing => exact .faultAt _ hl

/-- Every statement agrees if those that catch do. -/
theorem agree_execStep (s : Stmt)
    (tries : ∀ body handlers line, s = .tryBlock body handlers line →
      Agree b Eq (execTry env k body handlers)
        (execTry env' k' (body.blur b) (handlers.blur b))) :
    Agree b Eq (execStep env k s) (execStep env' k' (s.blur b)) := by
  have place (l : Nat) : b.line l = b.line (b.line l) := (b.line_twice l).symm
  cases s with
  | simple s => exact (agree_execSimple henv hk s).bind fun _ => .pure rfl
  | print value line =>
    exact (agree_blurred hk value).bind fun _ => (Agree.write _).bind fun _ => .pure rfl
  | conditional condition thenBranch elseBranch line =>
    cases elseBranch with
    | none =>
      refine (agree_evalCondition hk condition).bind fun holds => ?_
      cases holds with
      | true => exact agree_blurredBlock hk thenBranch
      | false => exact .pure rfl
    | some elseBranch =>
      refine (agree_evalCondition hk condition).bind fun holds => ?_
      cases holds with
      | true => exact agree_blurredBlock hk thenBranch
      | false => exact agree_blurredBlock hk elseBranch
  | whileLoop condition body line =>
    rw [Stmt.blur, execStep, execStep, hk.bound]
    exact agree_loop (agree_evalCondition hk condition) (agree_blurredBlock hk body) (.pure rfl) _
  | forLoop initializer condition iterator body line =>
    rw [Stmt.blur, execStep, execStep, hk.bound]
    exact (agree_execSimple henv hk initializer).bind fun _ =>
      agree_loop (agree_evalCondition hk condition) (agree_blurredBlock hk body)
        (agree_execSimple henv hk iterator) _
  | breakLoop line => exact .pure rfl
  | continueLoop line => exact .pure rfl
  | function name params body line =>
    refine (Agree.update fun c d same => ?_).bind fun _ => .pure rfl
    have stored := Function.blur_twice b ⟨params, body⟩
    rw [Context.blur_insertFunction, Context.blur_insertFunction, same, ← stored]
    rfl
  | returnValue value line =>
    cases value with
    | none => exact .pure rfl
    | some e => exact (agree_blurred hk e).bind fun _ => .pure rfl
  | classDecl name base interfaces members line =>
    rw [Stmt.blur, Member.blurAll_eq_map]
    exact (agree_declareClass henv (place line) name base interfaces members).bind fun _ =>
      .pure rfl
  | interfaceDecl name methods line =>
    refine (Agree.update fun c d same => ?_).bind fun _ => .pure rfl
    rw [Context.blur_insertInterface, Context.blur_insertInterface, same,
      Signature.map_blur_twice]
  | tryBlock body handlers line => exact tries body handlers line rfl
  | throwValue value line =>
    exact (agree_blurred hk value).bind fun v => agree_throwValue henv v
  | importModule module line => exact agree_importModule henv hk (place line) module

/-- From evaluators that agree, on the second side with themselves too, to those of one step more.
Trees that are the same up to the blur both agree with the blurred tree on the second side. -/
theorem agree_further (own : k'.AgreeUpTo b k') {exec exec' : Stmt → Run Outcome}
    (h : ∀ s, Agree b Eq (exec s) (exec' (s.blur b)))
    (h' : ∀ s, Agree b Eq (exec' s) (exec' (s.blur b))) (n : Nat) :
    Evaluators.AgreeUpTo b ⟨evalStep env k, fun s => Run.atLine s.line (exec s), n⟩
      ⟨evalStep env' k', fun s => Run.atLine s.line (exec' s), n⟩ := by
  have place (s : Stmt) : b.line s.line = b.line (s.blur b).line := by
    rw [s.line_blur, b.line_twice]
  exact {
    eval := Agree.of_blurred (agree_evalStep henv hk) (agree_evalStep (.refl b env') own)
    exec := Agree.of_blurred (fun s => (h s).atLine (place s)) fun s => (h' s).atLine (place s)
    bound := rfl }

end Rules

/-- Evaluation agrees up to any blur that spares `catch` clauses, on every budget: by induction on
the budget, one rule at a time. -/
theorem evaluators_agree (catches : b.catches = true) {env env' : Environment}
    (henv : env.Alike b env') (n : Nat) : (evaluators env n).AgreeUpTo b (evaluators env' n) := by
  induction n generalizing env with
  | zero => exact ⟨fun _ => .stop rfl, fun _ => .stop rfl, rfl⟩
  | succ n ih =>
    have step {env : Environment} (henv : env.Alike b env') (s : Stmt) :=
      agree_execStep henv (ih henv) s fun body handlers _ _ =>
        agree_execTry henv (ih henv) catches body handlers
    have own : env'.Alike b env' := .refl b env'
    exact agree_further henv (ih henv) (ih own) (step henv) (step own) (n + 1)

theorem Evaluators.AgreeUpTo.execProgram {k k' : Evaluators} (hk : k.AgreeUpTo b k')
    {p q : Program} (same : p.blur b = q.blur b) :
    Agree b Eq (k.execProgram p) (k'.execProgram q) := by
  refine (agree_execAll hk (congrArg Program.statements same)).bind fun outcome => ?_
  cases outcome with
  | normal => exact .pure rfl
  | returning v => exact .pure rfl
  | breaking => exact .stop rfl
  | continuing => exact .stop rfl

theorem agree_execProgram (catches : b.catches = true) {env env' : Environment}
    (henv : env.Alike b env') (n : Nat) {p q : Program} (same : p.blur b = q.blur b) :
    Agree b Eq (execProgram env n p) (execProgram env' n q) :=
  (evaluators_agree catches henv n).execProgram same

end ClassScript
