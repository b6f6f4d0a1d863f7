import ClassScript.Syntax

/-!
# Trees up to lines

Two trees are the same when they differ in nothing but lines: setting every line to zero makes them
equal.
-/

namespace ClassScript

mutual

@[simp] def Expr.forgetLines : Expr → Expr
  | .number x _ => .number x 0
  | .text s _ => .text s 0
  | .boolean b _ => .boolean b 0
  | .null _ => .null 0
  | .var x _ => .var x 0
  | .unary op e _ => .unary op e.forgetLines 0
  | .binary op l r _ => .binary op l.forgetLines r.forgetLines 0
  | .call f args _ => .call f (Expr.forgetLinesAll args) 0
  | .new c _ => .new c 0
  | .member e x _ => .member e.forgetLines x 0
  | .methodCall e m args _ => .methodCall e.forgetLines m (Expr.forgetLinesAll args) 0
  | .superCall m args _ => .superCall m (Expr.forgetLinesAll args) 0

@[simp] def Expr.forgetLinesAll : List Expr → List Expr
  | [] => []
  | e :: es => e.forgetLines :: Expr.forgetLinesAll es

end

@[simp] def Simple.forgetLines : Simple → Simple
  | .assign x e _ => .assign x e.forgetLines 0
  | .assignMember e x v _ => .assignMember e.forgetLines x v.forgetLines 0
  | .expr e _ => .expr e.forgetLines 0

def Signature.forgetLines (s : Signature) : Signature :=
  { s with line := 0 }

mutual

@[simp] def Stmt.forgetLines : Stmt → Stmt
  | .simple s => .simple s.forgetLines
  | .print e _ => .print e.forgetLines 0
  | .conditional c t none _ => .conditional c.forgetLines t.forgetLines none 0
  | .conditional c t (some e) _ =>
    .conditional c.forgetLines t.forgetLines (some e.forgetLines) 0
  | .whileLoop c b _ => .whileLoop c.forgetLines b.forgetLines 0
  | .forLoop i c u b _ =>
    .forLoop i.forgetLines c.forgetLines u.forgetLines b.forgetLines 0
  | .breakLoop _ => .breakLoop 0
  | .continueLoop _ => .continueLoop 0
  | .function f ps b _ => .function f ps b.forgetLines 0
  | .returnValue e _ => .returnValue (e.map Expr.forgetLines) 0
  | .classDecl c base is ms _ => .classDecl c base is (Member.forgetLinesAll ms) 0
  | .interfaceDecl i ms _ => .interfaceDecl i (ms.map Signature.forgetLines) 0
  | .tryBlock b h _ => .tryBlock b.forgetLines h.forgetLines 0
  | .throwValue e _ => .throwValue e.forgetLines 0
  | .importModule m _ => .importModule m 0

@[simp] def Stmt.forgetLinesAll : List Stmt → List Stmt
  | [] => []
  | s :: ss => s.forgetLines :: Stmt.forgetLinesAll ss

@[simp] def Block.forgetLines : Block → Block
  | .mk ss _ => .mk (Stmt.forgetLinesAll ss) 0

@[simp] def Handlers.forgetLines : Handlers → Handlers
  | .catchOnly x b => .catchOnly x b.forgetLines
  | .finallyOnly b => .finallyOnly b.forgetLines
  | .catchFinally x b f => .catchFinally x b.forgetLines f.forgetLines

@[simp] def Member.forgetLines : Member → Member
  | .field x a e _ => .field x a (e.map Expr.forgetLines) 0
  | .method m a ps b v o _ => .method m a ps b.forgetLines v o 0

@[simp] def Member.forgetLinesAll : List Member → List Member
  | [] => []
  | m :: ms => m.forgetLines :: Member.forgetLinesAll ms

end

theorem Expr.forgetLinesAll_eq_map (es : List Expr) :
    Expr.forgetLinesAll es = es.map Expr.forgetLines := by
  induction es with
  | nil => rfl
  | cons e es ih => rw [Expr.forgetLinesAll, ih, List.map_cons]

theorem Stmt.forgetLinesAll_eq_map (ss : List Stmt) :
    Stmt.forgetLinesAll ss = ss.map Stmt.forgetLines := by
  induction ss with
  | nil => rfl
  | cons s ss ih => rw [Stmt.forgetLinesAll, ih, List.map_cons]

theorem Member.forgetLinesAll_eq_map (ms : List Member) :
    Member.forgetLinesAll ms = ms.map Member.forgetLines := by
  induction ms with
  | nil => rfl
  | cons m ms ih => rw [Member.forgetLinesAll, ih, List.map_cons]

def Program.forgetLines (p : Program) : Program :=
  ⟨Stmt.forgetLinesAll p.statements⟩

/-- Equality of sources up to lines. -/
def Program.sameTree (p q : Program) : Bool :=
  p.forgetLines == q.forgetLines

end ClassScript
