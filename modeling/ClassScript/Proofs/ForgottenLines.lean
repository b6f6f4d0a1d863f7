import ClassScript.Proofs.AgreeingRules

/-!
# Programs that differ in lines alone

Taking the lines out of trees and of the contexts that store them is a blur: one that merges all
lines and nothing else. So programs that differ in lines alone do the same but for the line of a
fault.
-/

namespace ClassScript

/-- All lines are the same. -/
def Blur.lines : Blur where
  line _ := 0
  access a := a
  flag f := f
  log := true
  line_twice _ := rfl
  access_twice _ := rfl
  flag_twice _ := rfl

@[simp] theorem Blur.lines_line (l : Nat) : Blur.lines.line l = 0 := rfl

@[simp] theorem Blur.lines_access (a : Access) : Blur.lines.access a = a := rfl

@[simp] theorem Blur.lines_flag (f : Bool) : Blur.lines.flag f = f := rfl

@[simp] theorem Blur.lines_caughtName (x : String) : Blur.lines.caughtName x = x := rfl

@[simp] theorem Blur.lines_caughtBody (body : Block) : Blur.lines.caughtBody body = body := rfl

mutual

theorem Expr.blur_lines : (e : Expr) → e.blur .lines = e.forgetLines
  | .number .. | .text .. | .boolean .. | .null .. | .var .. | .new .. => rfl
  | .unary _ e _ => by simp [e.blur_lines]
  | .binary _ l r _ => by simp [l.blur_lines, r.blur_lines]
  | .member e _ _ => by simp [e.blur_lines]
  | .call _ args _ => by simp [Expr.blurAll_lines args]
  | .methodCall e _ args _ => by simp [e.blur_lines, Expr.blurAll_lines args]
  | .superCall _ args _ => by simp [Expr.blurAll_lines args]

theorem Expr.blurAll_lines : (es : List Expr) → Expr.blurAll .lines es = Expr.forgetLinesAll es
  | [] => rfl
  | e :: es => by simp [e.blur_lines, Expr.blurAll_lines es]

end

theorem Simple.blur_lines (s : Simple) : s.blur .lines = s.forgetLines := by
  cases s <;> simp [Expr.blur_lines]

mutual

theorem Stmt.blur_lines : (s : Stmt) → s.blur .lines = s.forgetLines
  | .simple s => by simp only [Stmt.blur, Stmt.forgetLines, s.blur_lines]
  | .print e _ | .throwValue e _ => by simp [e.blur_lines]
  | .conditional c t none _ => by simp [c.blur_lines, t.blur_lines]
  | .conditional c t (some e) _ => by simp [c.blur_lines, t.blur_lines, e.blur_lines]
  | .whileLoop c body _ => by simp [c.blur_lines, body.blur_lines]
  | .forLoop i c u body _ => by
    simp only [Stmt.blur, Stmt.forgetLines, i.blur_lines, c.blur_lines, u.blur_lines,
      body.blur_lines, Blur.lines_line]
  | .breakLoop _ | .continueLoop _ | .importModule .. => rfl
  | .function _ _ body _ => by simp [body.blur_lines]
  | .returnValue e _ => by simp [funext Expr.blur_lines]
  | .classDecl _ _ _ ms _ => by simp [Member.blurAll_lines ms]
  | .interfaceDecl .. => rfl
  | .tryBlock body h _ => by simp [body.blur_lines, h.blur_lines]

theorem Stmt.blurAll_lines : (ss : List Stmt) → Stmt.blurAll .lines ss = Stmt.forgetLinesAll ss
  | [] => rfl
  | s :: ss => by simp [s.blur_lines, Stmt.blurAll_lines ss]

theorem Block.blur_lines : (body : Block) → body.blur .lines = body.forgetLines
  | .mk ss _ => by simp [Stmt.blurAll_lines ss]

theorem Handlers.blur_lines : (h : Handlers) → h.blur .lines = h.forgetLines
  | .catchOnly _ body | .finallyOnly body => by simp [body.blur_lines]
  | .catchFinally _ body final => by simp [body.blur_lines, final.blur_lines]

theorem Member.blur_lines : (m : Member) → m.blur .lines = m.forgetLines
  | .field _ _ e _ => by simp [funext Expr.blur_lines]
  | .method _ _ _ body _ _ _ => by simp [body.blur_lines]

theorem Member.blurAll_lines :
    (ms : List Member) → Member.blurAll .lines ms = Member.forgetLinesAll ms
  | [] => rfl
  | m :: ms => by simp [m.blur_lines, Member.blurAll_lines ms]

end

theorem Program.blur_lines (p : Program) : p.blur .lines = p.forgetLines :=
  congrArg Program.mk (Stmt.blurAll_lines p.statements)

def Function.forgetLines (f : Function) : Function :=
  ⟨f.params, f.body.forgetLines⟩

def Resolution.forgetLines : Resolution → Resolution
  | notFound => .notFound
  | found owner m => .found owner m.forgetLines

def ClassDef.forgetLines (c : ClassDef) : ClassDef :=
  { c with members := c.members.mapValues Member.forgetLines }

def ClassTable.forgetLines (t : ClassTable) : ClassTable :=
  { t with
    classes := t.classes.map ClassDef.forgetLines
    known := t.known.mapValues Resolution.forgetLines }

/-- The context with the lines taken out of all the trees it stores. -/
def Context.forgetLines (c : Context) : Context :=
  { c with
    functions := c.functions.mapValues Function.forgetLines
    interfaces := c.interfaces.mapValues (List.map Signature.forgetLines)
    classes := c.classes.forgetLines }

theorem Function.blur_lines (f : Function) : f.blur .lines = f.forgetLines :=
  congrArg (Function.mk f.params) f.body.blur_lines

theorem Resolution.blur_lines (r : Resolution) : r.blur .lines = r.forgetLines := by
  cases r with
  | notFound => rfl
  | found owner m => exact congrArg (Resolution.found owner) m.blur_lines

theorem ClassDef.blur_lines (c : ClassDef) : c.blur .lines = c.forgetLines := by
  rw [blur, forgetLines, funext Member.blur_lines]

theorem ClassTable.blur_lines (t : ClassTable) : t.blur .lines = t.forgetLines := by
  rw [blur, forgetLines, funext ClassDef.blur_lines, funext Resolution.blur_lines]

theorem Context.blur_lines (c : Context) : c.blur .lines = c.forgetLines := by
  rw [blur, forgetLines, funext Function.blur_lines, ClassTable.blur_lines]
  rfl

theorem execProgram_of_forgetLines (env : Environment) (n : Nat) {p q : Program}
    (trees : p.forgetLines = q.forgetLines) {c d : Context} (same : c.forgetLines = d.forgetLines) :
    EndAlike .lines Eq (execProgram env n p c).1 (execProgram env n q d).1 ∧
      (execProgram env n p c).2.forgetLines = (execProgram env n q d).2.forgetLines := by
  rw [← p.blur_lines, ← q.blur_lines] at trees
  simp only [← Context.blur_lines] at same ⊢
  exact agree_execProgram rfl (.refl .lines env) n trees c d same

end ClassScript
