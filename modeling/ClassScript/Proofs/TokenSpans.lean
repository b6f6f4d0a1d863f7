import ClassScript.Proofs.Rendering

/-!
# The tokens that a node spans

The span of a node is the part of the tokens that it is written as, with the semicolon that may end
it and with the parentheses around it. It is a language that asks of every token what the parser asks
of it, and of one token, the head, that it is on the line of the node. The head of a statement, a
body, a member and a signature is its first token. The head of an operation on two operands is the
operator, that of a member access or a call of a method is the point, and that of any other
expression its first token, the parentheses around it left aside.

Nothing is assumed of the tokens: names and numbers may have any text.
-/

namespace ClassScript

open Computability

namespace Span

/-- A single token. -/
def one (test : Token → Prop) : Language Token :=
  {ts | ∃ t : Token, ts = [t] ∧ test t}

/-- A word or symbol. -/
def sign (text : String) : Language Token :=
  one fun t => t.isText text = true

def keyword (text : String) : Language Token :=
  one fun t => t.kind = .keyword ∧ t.text = text

def named (x : String) : Language Token :=
  one fun t => t.kind = .identifier ∧ t.text = x

/-- The first token is on the given line. -/
def headed (line : Nat) (l : Language Token) : Language Token :=
  {ts | ts ∈ l ∧ ts.head?.map Token.line = some line}

/-- Any number of parentheses around something. -/
inductive Enclosed (l : Language Token) : List Token → Prop
  | bare {ts : List Token} (inside : ts ∈ l) : Enclosed l ts
  | parentheses {opening closing : Token} {ts : List Token} (hopening : opening.kind = .lparen)
      (inside : Enclosed l ts) (hclosing : closing.isText ")" = true) :
      Enclosed l (opening :: (ts ++ [closing]))

def enclosed (l : Language Token) : Language Token :=
  {ts | Enclosed l ts}

/-- A part that may be left out. -/
def possibly (l : Language Token) : Language Token :=
  1 + l

def semicolons : Language Token := (sign ";")∗

/-- The semicolon that may end a statement. -/
def ending : Language Token := possibly (sign ";")

/-- Items with commas between them. -/
def listed : List (Language Token) → Language Token
  | [] => 1
  | l :: ls => l * (ls.map fun l' => sign "," * l').prod

def parenthesized (ls : List (Language Token)) : Language Token :=
  sign "(" * listed ls * sign ")"

def names (xs : List String) : Language Token :=
  parenthesized (xs.map named)

/-- The interfaces of a class, if it has any. -/
def implemented : List String → Language Token
  | [] => 1
  | i :: is => sign "implements" * listed ((i :: is).map named)

def braced (l : Language Token) : Language Token :=
  sign "\x7b" * l * sign "\x7d"

/-- The access modifier, which is told by its text. A member without one is private. -/
def access (a : Access) : Language Token :=
  {ts | (ts = [] ∧ a = .privateAccess) ∨ ts ∈ one fun t => t.text = a.word}

/-- What a method is told to be of `virtual` and `override`. -/
def modifiers : Bool → Bool → Language Token
  | false, false => 1
  | true, false => sign "virtual"
  | false, true => sign "override"
  | true, true => 0

/-- The modifiers of a field are not kept. -/
def anyModifiers : Language Token :=
  {ts | ∃ isVirtual isOverride, ts ∈ modifiers isVirtual isOverride}

end Span

open ClassScript.Span

mutual

def Expr.span : Expr → Language Token
  | .number x line =>
    enclosed (headed line (one fun t => t.kind = .number ∧ Parser.numberValue t.text = x))
  | .text s line =>
    enclosed (headed line (one fun t => t.kind = .string ∧ Text.unescape t.text = s))
  | .boolean b line => enclosed (headed line (keyword (if b then "true" else "false")))
  | .null line => enclosed (headed line (keyword "null"))
  | .var x line => enclosed (headed line (if x = "this" then named x + keyword "this" else named x))
  | .unary op e line => enclosed (headed line (sign op.symbol) * e.span)
  | .binary op l r line => enclosed (l.span * headed line (sign op.symbol) * r.span)
  | .call f args line => enclosed (headed line (named f) * parenthesized (Expr.spans args))
  | .new c line =>
    enclosed (headed line (keyword "new") * named c * possibly (sign "(" * sign ")"))
  | .member e x line => enclosed (e.span * headed line (sign ".") * named x)
  | .methodCall e m args line =>
    enclosed (e.span * headed line (sign ".") * named m * parenthesized (Expr.spans args))
  | .superCall m args line =>
    enclosed (headed line (keyword "super") * sign "." * named m *
      parenthesized (Expr.spans args))

def Expr.spans : List Expr → List (Language Token)
  | [] => []
  | e :: es => e.span :: Expr.spans es

end

theorem Expr.spans_eq_map (es : List Expr) : Expr.spans es = es.map Expr.span := by
  induction es with
  | nil => rw [Expr.spans, List.map_nil]
  | cons e es ih => rw [Expr.spans, ih, List.map_cons]

/-- A value after an assignment sign. -/
def Expr.assignedSpan (e : Expr) : Language Token :=
  (one fun t => t.kind = .assign) * e.span

/-- A condition in parentheses. -/
def Expr.conditionSpan (e : Expr) : Language Token :=
  sign "(" * (e.span * sign ")")

/-- The member that is assigned to may have parentheses around it. -/
def Simple.span : Simple → Language Token
  | .assign x e line => headed line (named x) * e.assignedSpan
  | .assignMember e x v line =>
    headed line (enclosed (e.span * sign "." * named x) * v.assignedSpan)
  | .expr e line => headed line e.span

def Signature.span (s : Signature) : Language Token :=
  headed s.line (possibly (one fun t => (Access.ofWord? t.text).isSome = true) *
    sign "function" * named s.name * names s.params * ending)

mutual

def Stmt.span : Stmt → Language Token
  | .simple s => s.span * ending
  | .print e line => headed line (named "print") * e.span * ending
  | .conditional c t none line => headed line (keyword "if") * c.conditionSpan * t.span
  | .conditional c t (some e) line =>
    headed line (keyword "if") * c.conditionSpan * t.span * (sign "else" * e.span)
  | .whileLoop c b line => headed line (keyword "while") * c.conditionSpan * b.span
  | .forLoop i c u b line =>
    headed line (keyword "for") * sign "(" * i.span * sign ";" * c.span * sign ";" * u.span *
      sign ")" * b.span
  | .breakLoop line => headed line (keyword "break") * ending
  | .continueLoop line => headed line (keyword "continue") * ending
  | .function f ps b line => headed line (keyword "function") * named f * names ps * b.span
  | .returnValue e line =>
    headed line (keyword "return") * Rendering.optional Expr.span e * ending
  | .classDecl c base is ms line =>
    headed line (keyword "class") * named c *
      Rendering.optional (fun b => sign "extends" * named b) base *
      implemented is * braced (Member.spanAll ms)
  | .interfaceDecl i ms line =>
    headed line (keyword "interface") * named i * braced (ms.map Signature.span).prod
  | .tryBlock b h line => headed line (keyword "try") * b.span * h.span
  | .throwValue e line => headed line (keyword "throw") * e.span * ending
  | .importModule m line => headed line (keyword "import") * named m * sign ";"

/-- Statements with semicolons after each of them. -/
def Stmt.spanAll : List Stmt → Language Token
  | [] => 1
  | s :: ss => s.span * semicolons * Stmt.spanAll ss

/-- A statement that stands alone. -/
def Stmt.spanAlone : List Stmt → Language Token
  | [s] => s.span
  | _ => 0

/-- A body is in braces, or it is a statement that stands alone. -/
def Block.span : Block → Language Token
  | .mk ss line => headed line (braced (semicolons * Stmt.spanAll ss) + Stmt.spanAlone ss)

def Handlers.span : Handlers → Language Token
  | .catchOnly x b => sign "catch" * (sign "(" * named x * sign ")" * b.span)
  | .finallyOnly f => sign "finally" * f.span
  | .catchFinally x b f =>
    sign "catch" * (sign "(" * named x * sign ")" * b.span) * (sign "finally" * f.span)

def Member.span : Member → Language Token
  | .field x a e line =>
    headed line (access a * anyModifiers * named x * Rendering.optional Expr.assignedSpan e *
      sign ";")
  | .method m a ps b v o line =>
    headed line (access a * modifiers v o * sign "function" * named m * names ps * b.span)

def Member.spanAll : List Member → Language Token
  | [] => 1
  | m :: ms => m.span * Member.spanAll ms

end

theorem Stmt.spanAll_eq_prod (ss : List Stmt) :
    Stmt.spanAll ss = (ss.map fun s => s.span * semicolons).prod := by
  induction ss with
  | nil => rw [Stmt.spanAll, List.map_nil, List.prod_nil]
  | cons s ss ih => rw [Stmt.spanAll, ih, List.map_cons, List.prod_cons]

theorem Member.spanAll_eq_prod (ms : List Member) :
    Member.spanAll ms = (ms.map Member.span).prod := by
  induction ms with
  | nil => rw [Member.spanAll, List.map_nil, List.prod_nil]
  | cons m ms ih => rw [Member.spanAll, ih, List.map_cons, List.prod_cons]

/-- A program spans all tokens. -/
def Program.span (p : Program) : Language Token :=
  semicolons * Stmt.spanAll p.statements

namespace Span

variable {l m : Language Token} {line : Nat} {ts : List Token}

/-- The first token is on the line. -/
def StartsOn (line : Nat) (l : Language Token) : Prop :=
  ∀ ts ∈ l, ts.head?.map Token.line = some line

namespace StartsOn

theorem headed : StartsOn line (headed line l) :=
  fun _ h => h.2

theorem exists_head (h : StartsOn line l) (hts : ts ∈ l) :
    ∃ head right, ts = head :: right ∧ head.line = line := by
  have hhead := h ts hts
  cases ts with
  | nil => cases hhead
  | cons t ts => exact ⟨t, ts, rfl, Option.some.inj hhead⟩

theorem nil_notMem (h : StartsOn line l) : [] ∉ l := by
  intro hnil
  cases h [] hnil

theorem mul (h : StartsOn line l) : StartsOn line (l * m) := by
  rintro _ ⟨first, hfirst, second, _, rfl⟩
  obtain ⟨head, right, rfl, hline⟩ := h.exists_head hfirst
  exact congrArg some hline

end StartsOn

end Span

theorem Simple.startsOn_span (s : Simple) : StartsOn s.line s.span := by
  cases s with
  | assign _ _ _ => exact .mul .headed
  | assignMember _ _ _ _ => exact .headed
  | expr _ _ => exact .headed

theorem Stmt.startsOn_span (s : Stmt) : StartsOn s.line s.span := by
  cases s with
  | simple s =>
    rw [Stmt.span]
    exact .mul s.startsOn_span
  | breakLoop _ | continueLoop _ =>
    rw [Stmt.span]
    exact .mul .headed
  | print _ _ | whileLoop _ _ _ | returnValue _ _ | tryBlock _ _ _ | throwValue _ _
  | importModule _ _ | interfaceDecl _ _ _ =>
    rw [Stmt.span]
    exact .mul (.mul .headed)
  | conditional _ _ e _ =>
    cases e with
    | none =>
      rw [Stmt.span]
      exact .mul (.mul .headed)
    | some _ =>
      rw [Stmt.span]
      exact .mul (.mul (.mul .headed))
  | function _ _ _ _ =>
    rw [Stmt.span]
    exact .mul (.mul (.mul .headed))
  | classDecl _ _ _ _ _ =>
    rw [Stmt.span]
    exact .mul (.mul (.mul (.mul .headed)))
  | forLoop _ _ _ _ _ =>
    rw [Stmt.span]
    exact .mul (.mul (.mul (.mul (.mul (.mul (.mul (.mul .headed)))))))

theorem Block.startsOn_span (b : Block) : StartsOn b.line b.span := by
  cases b
  rw [Block.span]
  exact .headed

def Member.line : Member → Nat
  | .field _ _ _ line | .method _ _ _ _ _ _ line => line

theorem Member.startsOn_span (m : Member) : StartsOn m.line m.span := by
  cases m <;> (rw [Member.span]; exact .headed)

theorem Signature.startsOn_span (s : Signature) : StartsOn s.line s.span :=
  .headed

end ClassScript
