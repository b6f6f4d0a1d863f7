/-!
# Syntax trees

Expressions, statements and class members as the grammar builds them. Every node carries the line
it is reported at. What the grammar rules out has no place in the types: a block occurs only as a
body, a call of a method names the method, a `try` has a `catch` or a `finally`, and the header of
a `for` holds simple statements only.
-/

namespace ClassScript

inductive UnaryOp where
  | minus
  | plus
  | not
  deriving DecidableEq, Inhabited

def UnaryOp.symbol : UnaryOp → String
  | minus => "-"
  | plus => "+"
  | not => "!"

inductive BinaryOp where
  | or
  | and
  | eq
  | ne
  | lt
  | gt
  | le
  | ge
  | add
  | sub
  | mul
  | div
  | mod
  deriving DecidableEq, Inhabited

namespace BinaryOp

def symbol : BinaryOp → String
  | or => "||"
  | and => "&&"
  | eq => "=="
  | ne => "!="
  | lt => "<"
  | gt => ">"
  | le => "<="
  | ge => ">="
  | add => "+"
  | sub => "-"
  | mul => "*"
  | div => "/"
  | mod => "%"

def all : List BinaryOp :=
  [or, and, eq, ne, lt, gt, le, ge, add, sub, mul, div, mod]

def ofSymbol? (symbol : String) : Option BinaryOp :=
  all.find? fun op => op.symbol == symbol

/-- How loosely the operator binds; operators of one level associate to the left. -/
def level : BinaryOp → Nat
  | mul | div | mod => 0
  | add | sub => 1
  | lt | gt | le | ge => 2
  | eq | ne => 3
  | and => 4
  | or => 5

/-- The number of levels. -/
def levels : Nat := 6

theorem level_lt_levels (op : BinaryOp) : op.level < levels := by
  cases op <;> decide

theorem ofSymbol?_symbol (op : BinaryOp) : ofSymbol? op.symbol = some op := by
  cases op <;> decide

end BinaryOp

inductive Access where
  | publicAccess
  | privateAccess
  | protectedAccess
  deriving DecidableEq, Inhabited

namespace Access

def word : Access → String
  | publicAccess => "public"
  | privateAccess => "private"
  | protectedAccess => "protected"

def ofWord? : String → Option Access
  | "public" => some publicAccess
  | "private" => some privateAccess
  | "protected" => some protectedAccess
  | _ => none

end Access

inductive Expr where
  | number (value : Float) (line : Nat)
  | text (value : String) (line : Nat)
  | boolean (value : Bool) (line : Nat)
  | null (line : Nat)
  | var (name : String) (line : Nat)
  | unary (op : UnaryOp) (operand : Expr) (line : Nat)
  | binary (op : BinaryOp) (left right : Expr) (line : Nat)
  | call (function : String) (args : List Expr) (line : Nat)
  | new (className : String) (line : Nat)
  | member (target : Expr) (name : String) (line : Nat)
  | methodCall (target : Expr) (method : String) (args : List Expr) (line : Nat)
  | superCall (method : String) (args : List Expr) (line : Nat)
  deriving Inhabited, BEq

/-- What may stand in the header of a `for`, and as a statement of its own. -/
inductive Simple where
  | assign (name : String) (value : Expr) (line : Nat)
  | assignMember (target : Expr) (member : String) (value : Expr) (line : Nat)
  | expr (value : Expr) (line : Nat)
  deriving Inhabited, BEq

/-- A method that an interface asks for. -/
structure Signature where
  name : String
  params : List String
  line : Nat
  deriving Inhabited, DecidableEq

mutual

inductive Stmt where
  | simple (statement : Simple)
  | print (value : Expr) (line : Nat)
  | conditional (condition : Expr) (thenBranch : Block) (elseBranch : Option Block) (line : Nat)
  | whileLoop (condition : Expr) (body : Block) (line : Nat)
  | forLoop (initializer : Simple) (condition : Expr) (iterator : Simple) (body : Block)
      (line : Nat)
  | breakLoop (line : Nat)
  | continueLoop (line : Nat)
  | function (name : String) (params : List String) (body : Block) (line : Nat)
  | returnValue (value : Option Expr) (line : Nat)
  | classDecl (name : String) (base : Option String) (interfaces : List String)
      (members : List Member) (line : Nat)
  | interfaceDecl (name : String) (methods : List Signature) (line : Nat)
  | tryBlock (body : Block) (handlers : Handlers) (line : Nat)
  | throwValue (value : Expr) (line : Nat)
  | importModule (module : String) (line : Nat)
  deriving BEq

/-- The statements of a body, with the line of its first token. -/
inductive Block where
  | mk (statements : List Stmt) (line : Nat)
  deriving BEq

/-- What follows the body of a `try`. -/
inductive Handlers where
  | catchOnly (name : String) (body : Block)
  | finallyOnly (body : Block)
  | catchFinally (name : String) (caught : Block) (final : Block)
  deriving BEq

/-- A member of a class; the modifiers `virtual` and `override` are kept for display only. -/
inductive Member where
  | field (name : String) (access : Access) (initializer : Option Expr) (line : Nat)
  | method (name : String) (access : Access) (params : List String) (body : Block)
      (isVirtual isOverride : Bool) (line : Nat)
  deriving BEq

end

instance : Inhabited Block := ⟨.mk [] 0⟩
instance : Inhabited Stmt := ⟨.breakLoop 0⟩
instance : Inhabited Member := ⟨.field "" .privateAccess none 0⟩

namespace Expr

def line : Expr → Nat
  | number _ l | text _ l | boolean _ l | null l | var _ l | unary _ _ l | binary _ _ _ l
  | call _ _ l | new _ l | member _ _ l | methodCall _ _ _ l | superCall _ _ l => l

end Expr

namespace Simple

def line : Simple → Nat
  | assign _ _ l | assignMember _ _ _ l | expr _ l => l

end Simple

namespace Block

def statements : Block → List Stmt
  | mk statements _ => statements

def line : Block → Nat
  | mk _ line => line

end Block

namespace Stmt

def line : Stmt → Nat
  | simple s => s.line
  | print _ l | conditional _ _ _ l | whileLoop _ _ l | forLoop _ _ _ _ l | breakLoop l
  | continueLoop l | function _ _ _ l | returnValue _ l | classDecl _ _ _ _ l
  | interfaceDecl _ _ l | tryBlock _ _ l | throwValue _ l | importModule _ l => l

end Stmt

namespace Handlers

/-- The variable and the body of the `catch`. -/
def caught? : Handlers → Option (String × Block)
  | catchOnly x b => some (x, b)
  | finallyOnly _ => none
  | catchFinally x b _ => some (x, b)

/-- The body of the `finally`. -/
def final? : Handlers → Option Block
  | catchOnly _ _ => none
  | finallyOnly b => some b
  | catchFinally _ _ b => some b

end Handlers

namespace Member

def name : Member → String
  | field name _ _ _ | method name _ _ _ _ _ _ => name

def access : Member → Access
  | field _ access _ _ | method _ access _ _ _ _ _ => access

def isField : Member → Bool
  | field .. => true
  | method .. => false

def isMethod (m : Member) : Bool :=
  !m.isField

end Member

/-- A whole source. -/
structure Program where
  statements : List Stmt
  deriving BEq, Inhabited

end ClassScript
