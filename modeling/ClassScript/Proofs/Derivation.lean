import ClassScript.Proofs.Rendering

/-!
# The grammar as a derivation relation

A phrase derives the token sequences that it can be written as. The rules say of every fixed token
of which kind and text it is, and of every node of the tree which token gives it its line. A
sequence may have more than one derivation: an `else` can belong to either of two conditionals, and
a semicolon can end a statement or stand between two.

The relation knows nothing of parsers: there is no order in which rules are tried, and what comes
after a phrase plays no part in it.
-/

namespace ClassScript

/-- A token of the given kind and text. -/
def Token.Is (t : Token) (kind : TokenKind) (text : String) : Prop :=
  t.kind = kind ∧ t.text = text

namespace Derivation

variable {α : Type}

/-- The line of the first token. -/
def firstLine (ts : List Token) : Nat :=
  (ts.head?.map Token.line).getD 0

/-- Any number of semicolons. -/
def Semicolons (ts : List Token) : Prop :=
  ∀ t ∈ ts, t.Is .separator ";"

/-- The semicolon that may end a simple statement. -/
inductive Ending : List Token → Prop
  | absent : Ending []
  | present {t : Token} : t.Is .separator ";" → Ending [t]

/-- A name. -/
inductive Named : String → List Token → Prop
  | mk {x : Token} : x.kind = .identifier → Named x.text [x]

/-- Items one after the other. -/
inductive Sequence (Item : α → List Token → Prop) : List α → List Token → Prop
  | nil : Sequence Item [] []
  | cons {a : α} {as : List α} {ts ts' : List Token} :
    Item a ts → Sequence Item as ts' → Sequence Item (a :: as) (ts ++ ts')

/-- One or more items with commas between them. -/
inductive Listed (Item : α → List Token → Prop) : List α → List Token → Prop
  | one {a : α} {ts : List Token} : Item a ts → Listed Item [a] ts
  | more {a : α} {as : List α} {ts ts' : List Token} {comma : Token} :
    Item a ts → comma.Is .comma "," → Listed Item as ts' →
    Listed Item (a :: as) (ts ++ comma :: ts')

/-- Items in parentheses with commas between them, possibly none. -/
inductive Parenthesized (Item : α → List Token → Prop) : List α → List Token → Prop
  | empty {l r : Token} : l.Is .lparen "(" → r.Is .rparen ")" → Parenthesized Item [] [l, r]
  | items {as : List α} {ts : List Token} {l r : Token} :
    l.Is .lparen "(" → Listed Item as ts → r.Is .rparen ")" →
    Parenthesized Item as (l :: (ts ++ [r]))

/-- Items with any number of semicolons after each of them. -/
inductive Separated (Item : α → List Token → Prop) : List α → List Token → Prop
  | nil : Separated Item [] []
  | cons {a : α} {as : List α} {ts semicolons ts' : List Token} :
    Item a ts → Semicolons semicolons → Separated Item as ts' →
    Separated Item (a :: as) (ts ++ (semicolons ++ ts'))

end Derivation

open ClassScript.Derivation

/-- The loosest rank, which every expression has. -/
def Expr.topRank : Nat := BinaryOp.levels + 1

/-- The tokens of an expression that binds as tightly as the rank says. Rank 0 is for primary
expressions and member accesses, rank 1 for prefix operators, and the others for the levels of the
binary operators, which are chains to the left. -/
inductive Expr.Derives : Nat → Expr → List Token → Prop
  | number {t : Token} :
    t.kind = .number → Derives 0 (.number (Parser.numberValue t.text) t.line) [t]
  | text {t : Token} : t.kind = .string → Derives 0 (.text (Text.unescape t.text) t.line) [t]
  | boolean {b : Bool} {t : Token} :
    t.Is .keyword (if b then "true" else "false") → Derives 0 (.boolean b t.line) [t]
  | null {t : Token} : t.Is .keyword "null" → Derives 0 (.null t.line) [t]
  | this {t : Token} : t.Is .keyword "this" → Derives 0 (.var "this" t.line) [t]
  | var {x : Token} : x.kind = .identifier → Derives 0 (.var x.text x.line) [x]
  | call {f : Token} {args : List Expr} {ts : List Token} :
    f.kind = .identifier → Parenthesized (Derives topRank) args ts →
    Derives 0 (.call f.text args f.line) (f :: ts)
  | new {t c : Token} :
    t.Is .keyword "new" → c.kind = .identifier → Derives 0 (.new c.text t.line) [t, c]
  | newCalled {t c l r : Token} :
    t.Is .keyword "new" → c.kind = .identifier → l.Is .lparen "(" → r.Is .rparen ")" →
    Derives 0 (.new c.text t.line) [t, c, l, r]
  | superCall {t dot m : Token} {args : List Expr} {ts : List Token} :
    t.Is .keyword "super" → dot.Is .dot "." → m.kind = .identifier →
    Parenthesized (Derives topRank) args ts →
    Derives 0 (.superCall m.text args t.line) (t :: dot :: m :: ts)
  | enclosed {l r : Token} {e : Expr} {ts : List Token} :
    l.Is .lparen "(" → Derives topRank e ts → r.Is .rparen ")" → Derives 0 e (l :: (ts ++ [r]))
  | member {target : Expr} {ts : List Token} {dot x : Token} :
    Derives 0 target ts → dot.Is .dot "." → x.kind = .identifier →
    Derives 0 (.member target x.text dot.line) (ts ++ [dot, x])
  | methodCall {target : Expr} {ts ts' : List Token} {dot m : Token} {args : List Expr} :
    Derives 0 target ts → dot.Is .dot "." → m.kind = .identifier →
    Parenthesized (Derives topRank) args ts' →
    Derives 0 (.methodCall target m.text args dot.line) (ts ++ dot :: m :: ts')
  | unary {op : UnaryOp} {t : Token} {e : Expr} {ts : List Token} :
    t.Is op.kind op.symbol → Derives 1 e ts → Derives 1 (.unary op e t.line) (t :: ts)
  | binary {op : BinaryOp} {t : Token} {left right : Expr} {ts ts' : List Token} :
    Derives (op.level + 2) left ts → t.Is op.kind op.symbol → Derives (op.level + 1) right ts' →
    Derives (op.level + 2) (.binary op left right t.line) (ts ++ t :: ts')
  | tighter {rank : Nat} {e : Expr} {ts : List Token} :
    Derives rank e ts → Derives (rank + 1) e ts

/-- The tokens of an expression. -/
abbrev Expr.DerivesTop : Expr → List Token → Prop := Expr.Derives Expr.topRank

/-- A condition in parentheses. -/
inductive Expr.DerivesCondition : Expr → List Token → Prop
  | mk {l r : Token} {c : Expr} {ts : List Token} :
    l.Is .lparen "(" → c.DerivesTop ts → r.Is .rparen ")" → DerivesCondition c (l :: (ts ++ [r]))

inductive Simple.Derives : Simple → List Token → Prop
  | assign {x eq : Token} {value : Expr} {ts : List Token} :
    x.kind = .identifier → eq.Is .assign "=" → value.DerivesTop ts →
    Derives (.assign x.text value x.line) (x :: eq :: ts)
  | assignMember {target value : Expr} {x : String} {line : Nat} {eq : Token}
    {ts ts' : List Token} :
    (Expr.member target x line).DerivesTop ts → eq.Is .assign "=" → value.DerivesTop ts' →
    Derives (.assignMember target x value (firstLine ts)) (ts ++ eq :: ts')
  | expr {e : Expr} {ts : List Token} : e.DerivesTop ts → Derives (.expr e (firstLine ts)) ts

namespace Derivation

/-- The base class, if there is one. -/
inductive Extends : Option String → List Token → Prop
  | absent : Extends none []
  | present {t c : Token} :
    t.Is .keyword "extends" → c.kind = .identifier → Extends (some c.text) [t, c]

/-- The interfaces of a class, if there are any. -/
inductive Implements : List String → List Token → Prop
  | absent : Implements [] []
  | present {t : Token} {is : List String} {ts : List Token} :
    t.Is .keyword "implements" → Listed Named is ts → Implements is (t :: ts)

/-- An access modifier; without one a member is private. -/
inductive AccessWord : Access → List Token → Prop
  | absent : AccessWord .privateAccess []
  | present {a : Access} {t : Token} : t.Is .keyword a.word → AccessWord a [t]

/-- One of `virtual` and `override`, or neither. -/
inductive Modifier : Bool → Bool → List Token → Prop
  | absent : Modifier false false []
  | isVirtual {t : Token} : t.Is .keyword "virtual" → Modifier true false [t]
  | isOverride {t : Token} : t.Is .keyword "override" → Modifier false true [t]

end Derivation

/-- A signature may have an access modifier, which is not kept, and a semicolon after it. -/
inductive Signature.Derives : Signature → List Token → Prop
  | mk {a : Access} {t m : Token} {params : List String} {word ts ending : List Token} :
    AccessWord a word → t.Is .keyword "function" → m.kind = .identifier →
    Parenthesized Named params ts → Ending ending →
    Derives ⟨m.text, params, firstLine (word ++ [t])⟩ (word ++ t :: m :: (ts ++ ending))

mutual

inductive Stmt.Derives : Stmt → List Token → Prop
  | simple {s : Simple} {ts ending : List Token} :
    s.Derives ts → Ending ending → Stmt.Derives (.simple s) (ts ++ ending)
  | print {t first : Token} {e : Expr} {ts ending : List Token} :
    t.Is .identifier "print" → first.text ∉ ["(", "=", "."] → e.DerivesTop (first :: ts) →
    Ending ending → Stmt.Derives (.print e t.line) (t :: first :: (ts ++ ending))
  | conditional {t : Token} {c : Expr} {b : Block} {ts ts' : List Token} :
    t.Is .keyword "if" → c.DerivesCondition ts → Block.Derives b ts' →
    Stmt.Derives (.conditional c b none t.line) (t :: (ts ++ ts'))
  | conditionalElse {t otherwise : Token} {c : Expr} {b b' : Block} {ts ts' ts'' : List Token} :
    t.Is .keyword "if" → c.DerivesCondition ts → Block.Derives b ts' →
    otherwise.Is .keyword "else" → Block.Derives b' ts'' →
    Stmt.Derives (.conditional c b (some b') t.line) (t :: (ts ++ (ts' ++ otherwise :: ts'')))
  | whileLoop {t : Token} {c : Expr} {b : Block} {ts ts' : List Token} :
    t.Is .keyword "while" → c.DerivesCondition ts → Block.Derives b ts' →
    Stmt.Derives (.whileLoop c b t.line) (t :: (ts ++ ts'))
  | forLoop {t l semicolon semicolon' r : Token} {initializer iterator : Simple} {c : Expr}
    {b : Block} {ts ts' ts'' body : List Token} :
    t.Is .keyword "for" → l.Is .lparen "(" → initializer.Derives ts →
    semicolon.Is .separator ";" → c.DerivesTop ts' → semicolon'.Is .separator ";" →
    iterator.Derives ts'' → r.Is .rparen ")" → Block.Derives b body →
    Stmt.Derives (.forLoop initializer c iterator b t.line)
      (t :: l :: (ts ++ semicolon :: (ts' ++ semicolon' :: (ts'' ++ r :: body))))
  | breakLoop {t : Token} {ending : List Token} :
    t.Is .keyword "break" → Ending ending → Stmt.Derives (.breakLoop t.line) (t :: ending)
  | continueLoop {t : Token} {ending : List Token} :
    t.Is .keyword "continue" → Ending ending → Stmt.Derives (.continueLoop t.line) (t :: ending)
  | function {t f : Token} {params : List String} {b : Block} {ts ts' : List Token} :
    t.Is .keyword "function" → f.kind = .identifier → Parenthesized Named params ts →
    Block.Derives b ts' → Stmt.Derives (.function f.text params b t.line) (t :: f :: (ts ++ ts'))
  | returnNothing {t : Token} {ending : List Token} :
    t.Is .keyword "return" → Ending ending →
    Stmt.Derives (.returnValue none t.line) (t :: ending)
  | returnValue {t : Token} {e : Expr} {ts ending : List Token} :
    t.Is .keyword "return" → e.DerivesTop ts → Ending ending →
    Stmt.Derives (.returnValue (some e) t.line) (t :: (ts ++ ending))
  | classDecl {t c l r : Token} {base : Option String} {is : List String} {members : List Member}
    {ts ts' ts'' : List Token} :
    t.Is .keyword "class" → c.kind = .identifier → Extends base ts → Implements is ts' →
    l.Is .lbrace "\x7b" → Sequence Member.Derives members ts'' → r.Is .rbrace "\x7d" →
    Stmt.Derives (.classDecl c.text base is members t.line)
      (t :: c :: (ts ++ (ts' ++ l :: (ts'' ++ [r]))))
  | interfaceDecl {t i l r : Token} {methods : List Signature} {ts : List Token} :
    t.Is .keyword "interface" → i.kind = .identifier → l.Is .lbrace "\x7b" →
    Sequence Signature.Derives methods ts → r.Is .rbrace "\x7d" →
    Stmt.Derives (.interfaceDecl i.text methods t.line) (t :: i :: l :: (ts ++ [r]))
  | tryBlock {t : Token} {b : Block} {h : Handlers} {ts ts' : List Token} :
    t.Is .keyword "try" → Block.Derives b ts → Handlers.Derives h ts' →
    Stmt.Derives (.tryBlock b h t.line) (t :: (ts ++ ts'))
  | throwValue {t : Token} {e : Expr} {ts ending : List Token} :
    t.Is .keyword "throw" → e.DerivesTop ts → Ending ending →
    Stmt.Derives (.throwValue e t.line) (t :: (ts ++ ending))
  | importModule {t m semicolon : Token} :
    t.Is .keyword "import" → m.kind = .identifier → semicolon.Is .separator ";" →
    Stmt.Derives (.importModule m.text t.line) [t, m, semicolon]

/-- Statements in braces, or a single one. -/
inductive Block.Derives : Block → List Token → Prop
  | braces {l r : Token} {ss : List Stmt} {semicolons ts : List Token} :
    l.Is .lbrace "\x7b" → Semicolons semicolons → Separated Stmt.Derives ss ts →
    r.Is .rbrace "\x7d" → Block.Derives (.mk ss l.line) (l :: (semicolons ++ (ts ++ [r])))
  | single {s : Stmt} {ts : List Token} :
    Stmt.Derives s ts → Block.Derives (.mk [s] (firstLine ts)) ts

/-- A `catch`, a `finally` or both. -/
inductive Handlers.Derives : Handlers → List Token → Prop
  | catchOnly {t l x r : Token} {b : Block} {ts : List Token} :
    t.Is .keyword "catch" → l.Is .lparen "(" → x.kind = .identifier → r.Is .rparen ")" →
    Block.Derives b ts → Handlers.Derives (.catchOnly x.text b) (t :: l :: x :: r :: ts)
  | finallyOnly {t : Token} {b : Block} {ts : List Token} :
    t.Is .keyword "finally" → Block.Derives b ts → Handlers.Derives (.finallyOnly b) (t :: ts)
  | catchFinally {t l x r t' : Token} {b b' : Block} {ts ts' : List Token} :
    t.Is .keyword "catch" → l.Is .lparen "(" → x.kind = .identifier → r.Is .rparen ")" →
    Block.Derives b ts → t'.Is .keyword "finally" → Block.Derives b' ts' →
    Handlers.Derives (.catchFinally x.text b b') (t :: l :: x :: r :: (ts ++ t' :: ts'))

/-- An access modifier and one of `virtual` and `override`, each of which may be absent, and then a
method or a field. What a field is told of the latter is not kept. -/
inductive Member.Derives : Member → List Token → Prop
  | method {a : Access} {v o : Bool} {t m : Token} {params : List String} {b : Block}
    {word modifier ts ts' : List Token} :
    AccessWord a word → Modifier v o modifier → t.Is .keyword "function" → m.kind = .identifier →
    Parenthesized Named params ts → Block.Derives b ts' →
    Member.Derives (.method m.text a params b v o (firstLine (word ++ (modifier ++ [t]))))
      (word ++ (modifier ++ t :: m :: (ts ++ ts')))
  | field {a : Access} {v o : Bool} {x semicolon : Token} {word modifier : List Token} :
    AccessWord a word → Modifier v o modifier → x.kind = .identifier →
    semicolon.Is .separator ";" →
    Member.Derives (.field x.text a none (firstLine (word ++ (modifier ++ [x]))))
      (word ++ (modifier ++ [x, semicolon]))
  | fieldValue {a : Access} {v o : Bool} {x eq semicolon : Token} {e : Expr}
    {word modifier ts : List Token} :
    AccessWord a word → Modifier v o modifier → x.kind = .identifier → eq.Is .assign "=" →
    e.DerivesTop ts → semicolon.Is .separator ";" →
    Member.Derives (.field x.text a (some e) (firstLine (word ++ (modifier ++ [x]))))
      (word ++ (modifier ++ x :: eq :: (ts ++ [semicolon])))

end

/-- A source: statements with any number of semicolons before, between and after them. -/
inductive Program.Derives : Program → List Token → Prop
  | mk {ss : List Stmt} {semicolons ts : List Token} :
    Semicolons semicolons → Separated Stmt.Derives ss ts →
    Program.Derives ⟨ss⟩ (semicolons ++ ts)

/-! A phrase has a first token, which is where its line comes from. -/

theorem Expr.Derives.ne_nil {rank : Nat} {e : Expr} {ts : List Token} (h : e.Derives rank ts) :
    ts ≠ [] := by
  induction rank generalizing e ts with
  | zero => cases h <;> simp
  | succ rank ih =>
    cases h with
    | tighter h => exact ih h
    | _ => simp

theorem Simple.Derives.ne_nil {s : Simple} {ts : List Token} (h : s.Derives ts) : ts ≠ [] := by
  cases h with
  | expr h => exact h.ne_nil
  | _ => simp

theorem Stmt.Derives.ne_nil {s : Stmt} {ts : List Token} (h : s.Derives ts) : ts ≠ [] := by
  cases h with
  | simple h _ =>
    intro hnil
    exact h.ne_nil (List.append_eq_nil_iff.mp hnil).1
  | _ => simp

end ClassScript
