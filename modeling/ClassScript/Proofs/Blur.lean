import ClassScript.Context

/-!
# Trees with details left out

Evaluation does not depend on every detail of a tree: lines are there to be reported, modifiers of
class members to be displayed, and `catch` clauses for values that are thrown. A blur merges details
of these sorts, and trees that are equal after it are the same up to the blur.

A context stores trees: the bodies of functions, the signatures of interfaces and the members of
classes. To blur them changes no answer of the class table but for the details in it.
-/

namespace ClassScript

/-- The sorts of details that are compared up to these maps only. -/
structure Blur where
  line : Nat → Nat
  access : Access → Access
  flag : Bool → Bool
  /-- Whether the debug log is compared; it shows the tokens of imported modules. -/
  log : Bool
  /-- Whether the variables and bodies of `catch` clauses are compared. -/
  catches : Bool := true
  line_twice (l : Nat) : line (line l) = line l
  access_twice (a : Access) : access (access a) = access a
  flag_twice (f : Bool) : flag (flag f) = flag f

attribute [simp] Blur.line_twice Blur.access_twice Blur.flag_twice

namespace Blur

def caughtName (b : Blur) (x : String) : String :=
  if b.catches then x else ""

def caughtBody (b : Blur) (body : Block) : Block :=
  if b.catches then body else .mk [] 0

theorem caughtName_of_catches {b : Blur} (h : b.catches = true) (x : String) :
    b.caughtName x = x :=
  if_pos h

theorem caughtBody_of_catches {b : Blur} (h : b.catches = true) (body : Block) :
    b.caughtBody body = body :=
  if_pos h

end Blur

mutual

@[simp] def Expr.blur (b : Blur) : Expr → Expr
  | .number x l => .number x (b.line l)
  | .text s l => .text s (b.line l)
  | .boolean v l => .boolean v (b.line l)
  | .null l => .null (b.line l)
  | .var x l => .var x (b.line l)
  | .unary op e l => .unary op (e.blur b) (b.line l)
  | .binary op e e' l => .binary op (e.blur b) (e'.blur b) (b.line l)
  | .call f args l => .call f (Expr.blurAll b args) (b.line l)
  | .new c l => .new c (b.line l)
  | .member e x l => .member (e.blur b) x (b.line l)
  | .methodCall e m args l => .methodCall (e.blur b) m (Expr.blurAll b args) (b.line l)
  | .superCall m args l => .superCall m (Expr.blurAll b args) (b.line l)

@[simp] def Expr.blurAll (b : Blur) : List Expr → List Expr
  | [] => []
  | e :: es => e.blur b :: Expr.blurAll b es

end

@[simp] def Simple.blur (b : Blur) : Simple → Simple
  | .assign x e l => .assign x (e.blur b) (b.line l)
  | .assignMember e x v l => .assignMember (e.blur b) x (v.blur b) (b.line l)
  | .expr e l => .expr (e.blur b) (b.line l)

def Signature.blur (b : Blur) (s : Signature) : Signature :=
  { s with line := b.line s.line }

mutual

@[simp] def Stmt.blur (b : Blur) : Stmt → Stmt
  | .simple s => .simple (s.blur b)
  | .print e l => .print (e.blur b) (b.line l)
  | .conditional c t none l => .conditional (c.blur b) (t.blur b) none (b.line l)
  | .conditional c t (some e) l =>
    .conditional (c.blur b) (t.blur b) (some (e.blur b)) (b.line l)
  | .whileLoop c body l => .whileLoop (c.blur b) (body.blur b) (b.line l)
  | .forLoop i c u body l =>
    .forLoop (i.blur b) (c.blur b) (u.blur b) (body.blur b) (b.line l)
  | .breakLoop l => .breakLoop (b.line l)
  | .continueLoop l => .continueLoop (b.line l)
  | .function f ps body l => .function f ps (body.blur b) (b.line l)
  | .returnValue e l => .returnValue (e.map (Expr.blur b)) (b.line l)
  | .classDecl c base is ms l => .classDecl c base is (Member.blurAll b ms) (b.line l)
  | .interfaceDecl i ms l => .interfaceDecl i (ms.map (Signature.blur b)) (b.line l)
  | .tryBlock body h l => .tryBlock (body.blur b) (h.blur b) (b.line l)
  | .throwValue e l => .throwValue (e.blur b) (b.line l)
  | .importModule m l => .importModule m (b.line l)

@[simp] def Stmt.blurAll (b : Blur) : List Stmt → List Stmt
  | [] => []
  | s :: ss => s.blur b :: Stmt.blurAll b ss

@[simp] def Block.blur (b : Blur) : Block → Block
  | .mk ss l => .mk (Stmt.blurAll b ss) (b.line l)

@[simp] def Handlers.blur (b : Blur) : Handlers → Handlers
  | .catchOnly x body => .catchOnly (b.caughtName x) (b.caughtBody (body.blur b))
  | .finallyOnly body => .finallyOnly (body.blur b)
  | .catchFinally x body final =>
    .catchFinally (b.caughtName x) (b.caughtBody (body.blur b)) (final.blur b)

@[simp] def Member.blur (b : Blur) : Member → Member
  | .field x a e l => .field x (b.access a) (e.map (Expr.blur b)) (b.line l)
  | .method m a ps body v o l =>
    .method m (b.access a) ps (body.blur b) (b.flag v) (b.flag o) (b.line l)

@[simp] def Member.blurAll (b : Blur) : List Member → List Member
  | [] => []
  | m :: ms => m.blur b :: Member.blurAll b ms

end

def Program.blur (b : Blur) (p : Program) : Program :=
  ⟨Stmt.blurAll b p.statements⟩

variable (b : Blur)

theorem Expr.blurAll_eq_map (es : List Expr) : Expr.blurAll b es = es.map (Expr.blur b) := by
  induction es with
  | nil => rfl
  | cons e es ih => rw [Expr.blurAll, ih, List.map_cons]

theorem Stmt.blurAll_eq_map (ss : List Stmt) : Stmt.blurAll b ss = ss.map (Stmt.blur b) := by
  induction ss with
  | nil => rfl
  | cons s ss ih => rw [Stmt.blurAll, ih, List.map_cons]

theorem Member.blurAll_eq_map (ms : List Member) :
    Member.blurAll b ms = ms.map (Member.blur b) := by
  induction ms with
  | nil => rfl
  | cons m ms ih => rw [Member.blurAll, ih, List.map_cons]

theorem Stmt.line_blur (s : Stmt) : (s.blur b).line = b.line s.line := by
  cases s with
  | simple s => cases s <;> rfl
  | conditional _ _ e _ => cases e <;> rfl
  | _ => rfl

mutual

theorem Expr.blur_twice : (e : Expr) → (e.blur b).blur b = e.blur b
  | .number .. | .text .. | .boolean .. | .null .. | .var .. | .new .. => by simp
  | .unary _ e _ => by simp [e.blur_twice]
  | .binary _ l r _ => by simp [l.blur_twice, r.blur_twice]
  | .member e _ _ => by simp [e.blur_twice]
  | .call _ args _ => by simp [Expr.blurAll_twice args]
  | .methodCall e _ args _ => by simp [e.blur_twice, Expr.blurAll_twice args]
  | .superCall _ args _ => by simp [Expr.blurAll_twice args]

theorem Expr.blurAll_twice :
    (es : List Expr) → Expr.blurAll b (Expr.blurAll b es) = Expr.blurAll b es
  | [] => rfl
  | e :: es => by simp [e.blur_twice, Expr.blurAll_twice es]

end

theorem Simple.blur_twice (s : Simple) : (s.blur b).blur b = s.blur b := by
  cases s <;> simp [Expr.blur_twice]

theorem Expr.map_blur_twice (e : Option Expr) :
    (e.map (blur b)).map (blur b) = e.map (blur b) := by
  cases e <;> simp [Expr.blur_twice]

theorem Signature.map_blur_twice (ss : List Signature) :
    (ss.map (blur b)).map (blur b) = ss.map (blur b) := by
  simp [blur]

mutual

theorem Stmt.blur_twice : (s : Stmt) → (s.blur b).blur b = s.blur b
  | .simple s => by simp only [Stmt.blur, s.blur_twice]
  | .print e _ | .throwValue e _ => by simp [e.blur_twice]
  | .conditional c t none _ => by simp [c.blur_twice, t.blur_twice]
  | .conditional c t (some e) _ => by simp [c.blur_twice, t.blur_twice, e.blur_twice]
  | .whileLoop c body _ => by simp [c.blur_twice, body.blur_twice]
  | .forLoop i c u body _ => by
    simp only [Stmt.blur, i.blur_twice, c.blur_twice, u.blur_twice, body.blur_twice, b.line_twice]
  | .breakLoop _ | .continueLoop _ | .importModule .. => by simp
  | .function _ _ body _ => by simp [body.blur_twice]
  | .returnValue e _ => by simp only [Stmt.blur, Expr.map_blur_twice, b.line_twice]
  | .classDecl _ _ _ ms _ => by simp [Member.blurAll_twice ms]
  | .interfaceDecl _ ms _ => by simp only [Stmt.blur, Signature.map_blur_twice, b.line_twice]
  | .tryBlock body h _ => by simp [body.blur_twice, h.blur_twice]

theorem Stmt.blurAll_twice :
    (ss : List Stmt) → Stmt.blurAll b (Stmt.blurAll b ss) = Stmt.blurAll b ss
  | [] => rfl
  | s :: ss => by simp [s.blur_twice, Stmt.blurAll_twice ss]

theorem Block.blur_twice : (body : Block) → (body.blur b).blur b = body.blur b
  | .mk ss _ => by simp [Stmt.blurAll_twice ss]

theorem Handlers.blur_twice : (h : Handlers) → (h.blur b).blur b = h.blur b
  | .catchOnly _ body => by
    cases hb : b.catches <;> simp [Blur.caughtName, Blur.caughtBody, hb, body.blur_twice]
  | .finallyOnly body => by simp [body.blur_twice]
  | .catchFinally _ body final => by
    cases hb : b.catches <;>
      simp [Blur.caughtName, Blur.caughtBody, hb, body.blur_twice, final.blur_twice]

theorem Member.blur_twice : (m : Member) → (m.blur b).blur b = m.blur b
  | .field _ _ e _ => by simp only [Member.blur, Expr.map_blur_twice, b.line_twice, b.access_twice]
  | .method _ _ _ body _ _ _ => by simp [body.blur_twice]

theorem Member.blurAll_twice :
    (ms : List Member) → Member.blurAll b (Member.blurAll b ms) = Member.blurAll b ms
  | [] => rfl
  | m :: ms => by simp [m.blur_twice, Member.blurAll_twice ms]

end

namespace Member

@[simp] theorem name_blur (m : Member) : (m.blur b).name = m.name := by
  cases m <;> rfl

@[simp] theorem isField_blur (m : Member) : (m.blur b).isField = m.isField := by
  cases m <;> rfl

@[simp] theorem isMethod_blur (m : Member) : (m.blur b).isMethod = m.isMethod :=
  congrArg not (m.isField_blur b)

/-- Members of one name and kind whose code is the same up to the blur. -/
inductive Alike : Member → Member → Prop
  | field (x : String) {a a' : Access} {e e' : Option Expr} {l l' : Nat}
      (same : e.map (Expr.blur b) = e'.map (Expr.blur b)) :
      Alike (.field x a e l) (.field x a' e' l')
  | method (x : String) {a a' : Access} (ps : List String) {body body' : Block}
      {v v' o o' : Bool} {l l' : Nat} (same : body.blur b = body'.blur b) :
      Alike (.method x a ps body v o l) (.method x a' ps body' v' o' l')

variable {b}

theorem alike_of_blur {m m' : Member} (h : m.blur b = m'.blur b) : Alike b m m' := by
  cases m with
  | field x a e l =>
    cases m' with
    | field x' a' e' l' =>
      simp only [blur, field.injEq] at h
      obtain ⟨rfl, -, same, -⟩ := h
      exact .field x same
    | method => cases h
  | method x a ps body v o l =>
    cases m' with
    | field => cases h
    | method x' a' ps' body' v' o' l' =>
      simp only [blur, method.injEq] at h
      obtain ⟨rfl, -, rfl, same, -, -, -⟩ := h
      exact .method x ps same

end Member

def Function.blur (f : Function) : Function :=
  ⟨f.params, f.body.blur b⟩

theorem Function.blur_twice (f : Function) : (f.blur b).blur b = f.blur b :=
  congrArg (Function.mk f.params) (f.body.blur_twice b)

namespace Resolution

def blur : Resolution → Resolution
  | notFound => .notFound
  | found owner m => .found owner (m.blur b)

/-- Answers with the same owner that are alike up to the blur. -/
inductive Alike : Resolution → Resolution → Prop
  | notFound : Alike .notFound .notFound
  | found (owner : Nat) {m m' : Member} : m.Alike b m' → Alike (.found owner m) (.found owner m')

theorem ofOption_map (r : Option (Nat × Member)) :
    ofOption (r.map (Prod.map id (Member.blur b))) = (ofOption r).blur b := by
  rcases r with _ | ⟨owner, m⟩ <;> rfl

variable {b}

theorem alike_of_blur {r r' : Resolution} (h : r.blur b = r'.blur b) : Alike b r r' := by
  cases r with
  | notFound =>
    cases r' with
    | notFound => exact .notFound
    | found => cases h
  | found owner m =>
    cases r' with
    | notFound => cases h
    | found owner' m' =>
      simp only [blur, found.injEq] at h
      obtain ⟨rfl, same⟩ := h
      exact .found owner (Member.alike_of_blur same)

end Resolution

namespace ClassDef

def blur (c : ClassDef) : ClassDef :=
  { c with members := c.members.mapValues (Member.blur b) }

theorem blur_twice (c : ClassDef) : (c.blur b).blur b = c.blur b := by
  simp only [blur, Bindings.mapValues, List.map_map, Function.comp_def, Member.blur_twice]

theorem blur_ofMembers (name : String) (base : Option Nat) (interfaces : List String)
    (members : List Member) :
    (ofMembers name base interfaces members).blur b =
      ofMembers name base interfaces (members.map (Member.blur b)) := by
  simp only [blur, ofMembers, Bindings.mapValues_ofList, List.map_map, Function.comp_def,
    Member.name_blur]

theorem names_blur (c : ClassDef) {sort : Member → Bool} (hsort : ∀ m, sort (m.blur b) = sort m) :
    ((c.blur b).members.values.filter sort).map Member.name =
      (c.members.values.filter sort).map Member.name := by
  have values : (c.blur b).members.values = c.members.values.map (Member.blur b) :=
    Bindings.values_mapValues _ _
  rw [values, List.filter_map, List.map_map]
  simp only [Function.comp_def, hsort, Member.name_blur]

variable {b}

theorem of_same {c d : ClassDef} (same : c.blur b = d.blur b) :
    c.name = d.name ∧ c.base = d.base ∧
      c.members.values.map (Member.blur b) = d.members.values.map (Member.blur b) := by
  obtain ⟨hname, hbase, _, hmembers⟩ := ClassDef.mk.inj same
  refine ⟨hname, hbase, ?_⟩
  rw [← Bindings.values_mapValues, hmembers, Bindings.values_mapValues]

end ClassDef

namespace ClassTable

def blur (t : ClassTable) : ClassTable :=
  { t with
    classes := t.classes.map (ClassDef.blur b)
    known := t.known.mapValues (Resolution.blur b) }

variable (t : ClassTable)

theorem size_blur : (t.blur b).size = t.size :=
  Array.size_map

theorem getElem?_blur (i : Nat) : (t.blur b).classes[i]? = t.classes[i]?.map (ClassDef.blur b) :=
  Array.getElem?_map

theorem get?_blur (name : String) :
    (t.blur b).get? name = (t.get? name).map (ClassDef.blur b) := by
  change (t.index? name).bind (fun i => (t.blur b).classes[i]?) = _
  simp only [getElem?_blur, get?]
  cases t.index? name <;> rfl

theorem define_blur (c : ClassDef) :
    (t.blur b).define (c.blur b) = (t.define c).map (Prod.map id (blur b)) := by
  have known : (t.blur b).contains (c.blur b).name = t.contains c.name := rfl
  rw [define, define, known, size_blur]
  split
  · rfl
  · simp [Except.map, blur, ClassDef.blur]

theorem chainFrom_blur (fuel i : Nat) : (t.blur b).chainFrom fuel i = t.chainFrom fuel i := by
  induction fuel generalizing i with
  | zero => rfl
  | succ fuel ih =>
    rw [chainFrom, chainFrom, getElem?_blur]
    cases t.classes[i]? with
    | none => rfl
    | some c => simp only [Option.map_some, ClassDef.blur, ih]

theorem chain?_blur (i : Nat) : (t.blur b).chain? i = t.chain? i := by
  rw [chain?, chain?, size_blur, chainFrom_blur]

theorem member?_blur (i : Nat) (name : String) :
    (t.blur b).member? i name = (t.member? i name).map (Member.blur b) := by
  rw [member?, member?, getElem?_blur]
  cases t.classes[i]? with
  | none => rfl
  | some c => exact Bindings.get?_mapValues _ _ _

theorem nearest?_blur {sort : Member → Bool} (hsort : ∀ m, sort (m.blur b) = sort m)
    (name : String) (chain : List Nat) :
    (t.blur b).nearest? sort name chain =
      (t.nearest? sort name chain).map (Prod.map id (Member.blur b)) := by
  rw [nearest?, nearest?, List.map_findSome?]
  congr 1
  funext i
  rw [Function.comp_apply, member?_blur]
  cases t.member? i name with
  | none => rfl
  | some m =>
    simp only [Option.map_some, Option.filter_some, hsort]
    split <;> rfl

theorem resolveOn_blur (chain : List Nat) (name : String) :
    (t.blur b).resolveOn chain name = (t.resolveOn chain name).blur b := by
  rw [resolveOn, resolveOn, nearest?_blur b t (Member.isField_blur b),
    nearest?_blur b t (Member.isMethod_blur b), ← Option.map_or, Resolution.ofOption_map]

theorem search?_blur (i : Nat) (name : String) :
    (t.blur b).search? i name = (t.search? i name).map (Resolution.blur b) := by
  rw [search?, search?, chain?_blur, Option.map_map]
  simp only [resolveOn_blur, Function.comp_def]

theorem resolve?_blur (i : Nat) (name : String) :
    (t.blur b).resolve? i name =
      (t.resolve? i name).map (Prod.map (Resolution.blur b) (blur b)) := by
  have remembered : (t.blur b).known.get? (i, name) =
      (t.known.get? (i, name)).map (Resolution.blur b) := Bindings.get?_mapValues _ _ _
  rw [resolve?, resolve?, remembered, search?_blur]
  cases t.known.get? (i, name) with
  | some r => rfl
  | none =>
    cases t.search? i name with
    | none => rfl
    | some r => simp [blur, Bindings.mapValues_insert]

theorem findMethod?_blur (i : Option Nat) (name : String) :
    (t.blur b).findMethod? i name = (t.findMethod? i name).map (Resolution.blur b) := by
  cases i with
  | none => rfl
  | some i =>
    rw [findMethod?, findMethod?, chain?_blur, Option.map_map]
    simp only [nearest?_blur b t (Member.isMethod_blur b), Resolution.ofOption_map,
      Function.comp_def]

end ClassTable

namespace Context

/-- The context with all the trees it stores blurred. -/
def blur (c : Context) : Context :=
  { c with
    functions := c.functions.mapValues (Function.blur b)
    interfaces := c.interfaces.mapValues (List.map (Signature.blur b))
    classes := c.classes.blur b
    log := if b.log then c.log else [] }

/-- A log that is not compared may be any other. -/
theorem blur_withLog {b : Blur} (hb : b.log = false) (c : Context) (log : List String) :
    ({ c with log } : Context).blur b = c.blur b := by
  simp only [blur, hb]
  rfl

theorem blur_insertFunction (c : Context) (name : String) (f : Function) :
    ({ c with functions := c.functions.insert name f } : Context).blur b =
      { c.blur b with functions := (c.blur b).functions.insert name (f.blur b) } := by
  simp only [blur, Bindings.mapValues_insert]

theorem blur_insertInterface (c : Context) (name : String) (methods : List Signature) :
    ({ c with interfaces := c.interfaces.insert name methods } : Context).blur b =
      { c.blur b with
        interfaces := (c.blur b).interfaces.insert name (methods.map (.blur b)) } := by
  simp only [blur, Bindings.mapValues_insert]

end Context

end ClassScript
