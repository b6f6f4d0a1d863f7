import ClassScript.Grammar
import ClassScript.Syntax.SameTree
import Mathlib.Computability.Language

/-!
# Rendering trees as tokens

A tree is written with every body in braces, one or more semicolons after a simple statement, any
number after a compound one, and parentheses only where the precedence of the operators needs them.

A rendering is a language, for some things are left open: the places of the tokens, the number of
semicolons, and which numeral of its value a number literal is written with. Spaces and comments
are not part of it, since tokens are what the parser reads.
-/

namespace ClassScript

open Computability

namespace Rendering

/-- One token of the given kind and text, at any place. -/
def word (kind : TokenKind) (text : String) : Language Token :=
  {ts | ∃ t : Token, ts = [t] ∧ t.kind = kind ∧ t.text = text}

theorem mem_word (t : Token) : [t] ∈ word t.kind t.text :=
  ⟨t, rfl, rfl, rfl⟩

/-- A text that the rule for numbers takes as a whole. -/
def IsNumeral (text : String) : Prop :=
  text ≠ "" ∧ Rule.number text.toList = text.toList.length

/-- A text that the rule for identifiers takes as a whole, and no keyword. -/
def IsName (text : String) : Prop :=
  text ≠ "" ∧ Rule.identifier text.toList = text.toList.length ∧ text ∉ Rule.keywords

instance (text : String) : Decidable (IsNumeral text) :=
  inferInstanceAs (Decidable (_ ∧ _))

instance (text : String) : Decidable (IsName text) :=
  inferInstanceAs (Decidable (_ ∧ _ ∧ _))

theorem IsName.ne {x text : String} (h : IsName x) (hnot : ¬ IsName text) : x ≠ text := by
  rintro rfl
  exact hnot h

theorem IsNumeral.ne {x text : String} (h : IsNumeral x) (hnot : ¬ IsNumeral text) : x ≠ text := by
  rintro rfl
  exact hnot h

/-- A number token of the given value. -/
def numeral (x : Float) : Language Token :=
  {ts | ∃ t : Token, ts = [t] ∧ t.kind = .number ∧ IsNumeral t.text ∧ Parser.numberValue t.text = x}

def identifier (x : String) : Language Token := word .identifier x

def keyword (text : String) : Language Token := word .keyword text

def semicolon : Language Token := word .separator ";"

def parenthesized (l : Language Token) : Language Token :=
  word .lparen "(" * l * word .rparen ")"

/-- Parentheses where they are needed. -/
def enclosed (needed : Bool) (l : Language Token) : Language Token :=
  if needed then parenthesized l else l

/-- Items with commas between them. -/
def listed : List (Language Token) → Language Token
  | [] => 1
  | l :: ls => l * (ls.map fun l' => word .comma "," * l').prod

/-- A part that may be absent. -/
def optional {α : Type} (f : α → Language Token) : Option α → Language Token
  | none => 1
  | some a => f a

def inBraces (l : Language Token) : Language Token :=
  word .lbrace "\x7b" * l * word .rbrace "\x7d"

/-- The interfaces of a class, if it has any. -/
def implemented : List String → Language Token
  | [] => 1
  | i :: is => keyword "implements" * listed ((i :: is).map identifier)

/-- Names in parentheses. -/
def parameters (ps : List String) : Language Token :=
  parenthesized (listed (ps.map identifier))

end Rendering

open Rendering

def UnaryOp.kind : UnaryOp → TokenKind
  | minus | plus => .operator
  | not => .logical

def BinaryOp.kind : BinaryOp → TokenKind
  | or | and => .logical
  | eq | ne | lt | gt | le | ge => .comparison
  | add | sub | mul | div | mod => .operator

/-- How loosely an expression binds: primary expressions and member accesses not at all, then prefix
operators, then the levels of the binary ones. -/
def Expr.rank : Expr → Nat
  | .binary op _ _ _ => op.level + 2
  | .unary _ _ _ => 1
  | _ => 0

theorem Expr.rank_le (e : Expr) : e.rank ≤ BinaryOp.levels + 1 := by
  cases e with
  | binary op l r line =>
    have := op.level_lt_levels
    simp only [Expr.rank]
    omega
  | _ => simp [Expr.rank]

mutual

@[simp] def Expr.rendering : Expr → Language Token
  | .number x _ => numeral x
  | .text s _ => word .string (Text.literal s)
  | .boolean b _ => keyword (if b then "true" else "false")
  | .null _ => keyword "null"
  | .var x _ => if x = "this" then keyword "this" else identifier x
  | .unary op e _ => word op.kind op.symbol * enclosed (1 < e.rank) e.rendering
  | .binary op l r _ =>
    -- only the left operand may be a chain of the same level
    enclosed (op.level + 2 < l.rank) l.rendering * word op.kind op.symbol *
      enclosed (op.level + 1 < r.rank) r.rendering
  | .call f args _ => identifier f * parenthesized (listed (Expr.renderings args))
  | .new c _ => keyword "new" * identifier c * parenthesized 1
  | .member e x _ => enclosed (0 < e.rank) e.rendering * word .dot "." * identifier x
  | .methodCall e m args _ =>
    enclosed (0 < e.rank) e.rendering * word .dot "." * identifier m *
      parenthesized (listed (Expr.renderings args))
  | .superCall m args _ =>
    keyword "super" * word .dot "." * identifier m * parenthesized (listed (Expr.renderings args))

@[simp] def Expr.renderings : List Expr → List (Language Token)
  | [] => []
  | e :: es => e.rendering :: Expr.renderings es

end

theorem Expr.renderings_eq_map (es : List Expr) : Expr.renderings es = es.map Expr.rendering := by
  induction es with
  | nil => rfl
  | cons e es ih => rw [Expr.renderings, ih, List.map_cons]

/-- A value after an assignment sign. -/
def Expr.assignedRendering (e : Expr) : Language Token :=
  word .assign "=" * e.rendering

@[simp] def Simple.rendering : Simple → Language Token
  | .assign x e _ => identifier x * e.assignedRendering
  | .assignMember e x v _ => (Expr.member e x 0).rendering * v.assignedRendering
  | .expr e _ => e.rendering

def Signature.rendering (s : Signature) : Language Token :=
  keyword "function" * identifier s.name * parameters s.params * semicolon

/-- Statements that end with a body. -/
def Stmt.isCompound : Stmt → Bool
  | .conditional .. | .whileLoop .. | .forLoop .. | .function .. | .classDecl .. | .interfaceDecl ..
  | .tryBlock .. => true
  | _ => false

/-- The semicolon that a statement needs. -/
def Stmt.ending (s : Stmt) : Language Token :=
  if s.isCompound then 1 else semicolon

/-- The semicolons after a statement. -/
def Stmt.separators (s : Stmt) : Language Token :=
  s.ending * semicolon∗

mutual

/-- A statement without the semicolons after it. -/
@[simp] def Stmt.rendering : Stmt → Language Token
  | .simple s => s.rendering
  | .print e _ => identifier "print" * e.rendering
  | .conditional c t none _ => keyword "if" * parenthesized c.rendering * t.rendering
  | .conditional c t (some e) _ =>
    keyword "if" * parenthesized c.rendering * t.rendering * (keyword "else" * e.rendering)
  | .whileLoop c b _ => keyword "while" * parenthesized c.rendering * b.rendering
  | .forLoop i c u b _ =>
    keyword "for" *
      parenthesized (i.rendering * semicolon * c.rendering * semicolon * u.rendering) * b.rendering
  | .breakLoop _ => keyword "break"
  | .continueLoop _ => keyword "continue"
  | .function f ps b _ => keyword "function" * identifier f * parameters ps * b.rendering
  | .returnValue e _ => keyword "return" * optional Expr.rendering e
  | .classDecl c base is ms _ =>
    keyword "class" * identifier c * optional (fun b => keyword "extends" * identifier b) base *
      implemented is * inBraces (Member.renderingAll ms)
  | .interfaceDecl i ms _ =>
    keyword "interface" * identifier i * inBraces (ms.map Signature.rendering).prod
  | .tryBlock b h _ => keyword "try" * b.rendering * h.rendering
  | .throwValue e _ => keyword "throw" * e.rendering
  | .importModule m _ => keyword "import" * identifier m

@[simp] def Stmt.renderingAll : List Stmt → Language Token
  | [] => 1
  | s :: ss => s.rendering * s.separators * Stmt.renderingAll ss

@[simp] def Block.rendering : Block → Language Token
  | .mk ss _ => inBraces (Stmt.renderingAll ss)

@[simp] def Handlers.rendering : Handlers → Language Token
  | .catchOnly x b => keyword "catch" * parenthesized (identifier x) * b.rendering
  | .finallyOnly f => keyword "finally" * f.rendering
  | .catchFinally x b f =>
    keyword "catch" * parenthesized (identifier x) * b.rendering * (keyword "finally" * f.rendering)

@[simp] def Member.rendering : Member → Language Token
  | .field x a e _ => keyword a.word * identifier x * optional Expr.assignedRendering e * semicolon
  | .method m a ps b v o _ =>
    keyword a.word * (if v then keyword "virtual" else 1) * (if o then keyword "override" else 1) *
      keyword "function" * identifier m * parameters ps * b.rendering

@[simp] def Member.renderingAll : List Member → Language Token
  | [] => 1
  | m :: ms => m.rendering * Member.renderingAll ms

end

def Program.rendering (p : Program) : Language Token :=
  Stmt.renderingAll p.statements

/-- The expressions right inside an expression. -/
def Expr.operands : Expr → List Expr
  | .unary _ e _ | .member e _ _ => [e]
  | .binary _ l r _ => [l, r]
  | .call _ args _ | .superCall _ args _ => args
  | .methodCall e _ args _ => e :: args
  | _ => []

/-- `P` holds of an expression and of all expressions inside it. -/
inductive Expr.Everywhere (P : Expr → Prop) : Expr → Prop
  | intro {e : Expr} (here : P e) (inside : ∀ e' ∈ e.operands, Everywhere P e') : Everywhere P e

/-- The names of an expression are names and its value has a numeral. -/
def Expr.Proper : Expr → Prop
  | .number x _ => ∃ text, IsNumeral text ∧ Parser.numberValue text = x
  | .var x _ => IsName x ∨ x = "this"
  | .call x _ _ | .new x _ | .member _ x _ | .methodCall _ x _ _ | .superCall x _ _ => IsName x
  | _ => True

def Expr.WellFormed (e : Expr) : Prop := e.Everywhere Expr.Proper

theorem Expr.WellFormed.var {x : String} {line : Nat} (hx : IsName x) :
    (Expr.var x line).WellFormed :=
  .intro (Or.inl hx) (by simp [Expr.operands])

theorem Expr.WellFormed.binary {op : BinaryOp} {l r : Expr} {line : Nat} (hl : l.WellFormed)
    (hr : r.WellFormed) : (Expr.binary op l r line).WellFormed := by
  refine .intro trivial fun e he => ?_
  rcases List.mem_pair.mp he with rfl | rfl
  · exact hl
  · exact hr

theorem Expr.WellFormed.member {e : Expr} {x : String} {line : Nat} (wf : e.WellFormed)
    (hx : IsName x) : (Expr.member e x line).WellFormed :=
  .intro hx fun _ he => List.mem_singleton.mp he ▸ wf

def Simple.WellFormed : Simple → Prop
  | .assign x e _ => IsName x ∧ e.WellFormed
  | .assignMember e x v _ => e.WellFormed ∧ IsName x ∧ v.WellFormed
  | .expr e _ => e.WellFormed

/-- The modifiers `virtual` and `override` exclude each other. -/
def Member.Proper : Member → Prop
  | .field x _ e _ => IsName x ∧ ∀ v ∈ e, v.WellFormed
  | .method m _ ps _ v o _ => IsName m ∧ (∀ x ∈ ps, IsName x) ∧ ¬(v = true ∧ o = true)

def Signature.Proper (s : Signature) : Prop :=
  IsName s.name ∧ ∀ x ∈ s.params, IsName x

/-- The names and the expressions of a statement are in order, what its bodies hold left aside. -/
def Stmt.Proper : Stmt → Prop
  | .simple s => s.WellFormed
  | .print e _ | .throwValue e _ => e.WellFormed
  | .conditional c _ _ _ | .whileLoop c _ _ => c.WellFormed
  | .forLoop i c u _ _ => i.WellFormed ∧ c.WellFormed ∧ u.WellFormed
  | .function f ps _ _ => IsName f ∧ ∀ x ∈ ps, IsName x
  | .returnValue e _ => ∀ v ∈ e, v.WellFormed
  | .classDecl c base is ms _ =>
    IsName c ∧ (∀ b ∈ base, IsName b) ∧ (∀ i ∈ is, IsName i) ∧ ∀ m ∈ ms, m.Proper
  | .interfaceDecl i ms _ => IsName i ∧ ∀ m ∈ ms, m.Proper
  | .tryBlock _ h _ => ∀ c ∈ h.caught?, IsName c.1
  | .importModule m _ => IsName m
  | .breakLoop _ | .continueLoop _ => True

/-- Whether the rendering of an expression starts with a parenthesis. -/
def Expr.startsParen : Expr → Bool
  | .binary op l _ _ => op.level + 2 < l.rank || l.startsParen
  | .member e _ _ | .methodCall e _ _ _ => 0 < e.rank || e.startsParen
  | _ => false

/-- Whether it starts with the variable `print`, and not with a member access to it. -/
def Expr.startsPrint : Expr → Bool
  | .var x _ => x == "print"
  | .binary op l _ _ => l.rank ≤ op.level + 2 && l.startsPrint
  | _ => false

/-- A statement that the reading of `print` leaves what it is: `print` and a parenthesis start a
call, and `print` and anything but a point, an assignment sign or a parenthesis a print
statement. -/
def Stmt.Plain : Stmt → Prop
  | .print e _ => e.startsParen = false
  | .simple (.expr e _) => e.startsPrint = false
  | _ => True

def Handlers.bodies : Handlers → List Block
  | .catchOnly _ b | .finallyOnly b => [b]
  | .catchFinally _ b f => [b, f]

def Member.bodies : Member → List Block
  | .field .. => []
  | .method _ _ _ b _ _ _ => [b]

/-- The bodies right inside a statement. -/
def Stmt.bodies : Stmt → List Block
  | .conditional _ t e _ => t :: e.toList
  | .whileLoop _ b _ | .forLoop _ _ _ b _ | .function _ _ b _ => [b]
  | .classDecl _ _ _ ms _ => ms.flatMap Member.bodies
  | .tryBlock b h _ => b :: h.bodies
  | _ => []

/-- `P` holds of a statement and of all statements inside it. -/
inductive Stmt.Everywhere (P : Stmt → Prop) : Stmt → Prop
  | intro {s : Stmt} (here : P s)
      (inside : ∀ b ∈ s.bodies, ∀ s' ∈ b.statements, Everywhere P s') : Everywhere P s

theorem Stmt.Everywhere.here {P : Stmt → Prop} {s : Stmt} (h : s.Everywhere P) : P s := by
  cases h with
  | intro here _ => exact here

theorem Stmt.Everywhere.of_no_bodies {P : Stmt → Prop} {s : Stmt} (h : P s) (hs : s.bodies = []) :
    s.Everywhere P :=
  .intro h (by simp [hs])

theorem Stmt.Everywhere.and {P Q : Stmt → Prop} {s : Stmt} (hP : s.Everywhere P)
    (hQ : s.Everywhere Q) : s.Everywhere fun s => P s ∧ Q s := by
  induction hP with
  | intro here _ ih =>
    cases hQ with
    | intro here' inside' =>
      exact .intro ⟨here, here'⟩ fun b hb s' hs => ih b hb s' hs (inside' b hb s' hs)

def Program.WellFormed (p : Program) : Prop :=
  ∀ s ∈ p.statements, s.Everywhere Stmt.Proper

def Program.Plain (p : Program) : Prop :=
  ∀ s ∈ p.statements, s.Everywhere Stmt.Plain

end ClassScript
