import ClassScript.Grammar.Expr

/-!
# Statements and declarations

Simple statements may end with one semicolon; semicolons between statements are skipped. A body is
a list of statements in braces or a single statement. A name followed by `=` starts an assignment,
and `print` starts a print statement unless `(`, `=` or `.` follows.
-/

namespace ClassScript

namespace Parser

/-- What a statement is made of: the parsers one level further in. -/
structure Inner where
  expression : Parser Expr
  statement : Parser Stmt

/-- The object and the member of a member access. -/
def memberTarget? : Expr → Option (Expr × String)
  | .member target member _ => some (target, member)
  | _ => none

/-- The value after the assignment sign, if that is next. -/
def assigned? (expression : Parser Expr) : Parser (Option Expr) :=
  whenNext (·.kind = .assign) fun _ => do
    skip
    expression

/-- What follows an expression in a simple statement: a value if a member is assigned. -/
def afterExpression (expression : Parser Expr) (e : Expr) (line : Nat) : Parser Simple :=
  match memberTarget? e with
  | none => return .expr e line
  | some (target, member) => do
    match ← assigned? expression with
    | some value => return .assignMember target member value line
    | none => return .expr e line

/-- An expression, or a member assignment when `=` follows a member access. -/
def simpleFromExpression (expression : Parser Expr) : Parser Simple := do
  let line ← currentLine
  let e ← expression
  afterExpression expression e line

/-- The rest of an assignment to a variable. -/
def assignment (expression : Parser Expr) (x : Token) : Parser Simple := do
  skip
  skip
  let value ← expression
  return .assign x.text value x.line

/-- An assignment, a member assignment or an expression, without its end. -/
def simple (expression : Parser Expr) : Parser Simple := do
  let first ← peek
  let second ← peekSecond
  match first, second with
  | some x, some eq =>
    if x.kind = .identifier ∧ eq.kind = .assign then assignment expression x
    else simpleFromExpression expression
  | _, _ => simpleFromExpression expression

/-- A statement and the semicolons after it. -/
def separated (statement : Parser Stmt) : Parser Stmt := do
  let s ← statement
  skipSeparators
  return s

/-- The statements of a body after its opening brace. -/
def bodyStatements (p : Inner) : Parser (List Stmt) := do
  skipSeparators
  let statements ← many (unlessClosed (separated p.statement))
  expect "\x7d"
  return statements

/-- Statements in braces, or a single one. -/
def block (p : Inner) : Parser Block := do
  let line ← currentLine
  match ← after "\x7b" (bodyStatements p) with
  | some statements => return .mk statements line
  | none => do
    let s ← p.statement
    return .mk [s] line

/-- A condition in parentheses. -/
def condition (p : Inner) : Parser Expr := do
  expect "("
  closing p.expression

def conditional (p : Inner) (line : Nat) : Parser Stmt := do
  let c ← condition p
  let thenBranch ← block p
  let elseBranch ← after "else" (block p)
  return .conditional c thenBranch elseBranch line

def whileLoop (p : Inner) (line : Nat) : Parser Stmt := do
  let c ← condition p
  let body ← block p
  return .whileLoop c body line

def forLoop (p : Inner) (line : Nat) : Parser Stmt := do
  expect "("
  let initializer ← simple p.expression
  expect ";"
  let c ← p.expression
  expect ";"
  let iterator ← simple p.expression
  expect ")"
  let body ← block p
  return .forLoop initializer c iterator body line

def params : Parser (List String) :=
  parenthesized (name .parameter)

def function (p : Inner) (line : Nat) : Parser Stmt := do
  let f ← name .function
  let ps ← params
  let body ← block p
  return .function f ps body line

/-- Whether a `return` has no value before this token. -/
def endsReturn (t : Token) : Bool :=
  t.isText ";" || t.isText "\x7d"

/-- The value of a `return`, absent before a semicolon, a closing brace and the end. -/
def returnValue (p : Inner) (line : Nat) : Parser Stmt := do
  let value ← whenNext (!endsReturn ·) fun _ => p.expression
  endSimple
  return .returnValue value line

/-- A statement that is a word and a value. -/
def valueStatement (p : Inner) (make : Expr → Stmt) : Parser Stmt := do
  let value ← p.expression
  endSimple
  return make value

/-- The semicolon after an import is not optional. -/
def importModule (line : Nat) : Parser Stmt := do
  let module ← name .module
  expect ";"
  return .importModule module line

/-- The variable of a `catch` and its body. -/
def catchClause (p : Inner) : Parser (String × Block) := do
  expect "("
  let x ← name .exceptionVariable
  expect ")"
  let body ← block p
  return (x, body)

/-- What follows a `catch` clause: a `finally` or nothing. -/
def afterCatch (p : Inner) (clause : String × Block) : Parser Handlers := do
  match ← after "finally" (block p) with
  | some f => return .catchFinally clause.1 clause.2 f
  | none => return .catchOnly clause.1 clause.2

/-- What follows the body of a `try`: a `catch`, a `finally` or both. -/
def handlers (p : Inner) : Parser Handlers := do
  match ← after "catch" (catchClause p) with
  | some clause => afterCatch p clause
  | none => do
    match ← after "finally" (block p) with
    | some f => return .finallyOnly f
    | none => fail .handler

def tryBlock (p : Inner) (line : Nat) : Parser Stmt := do
  let body ← block p
  let hs ← handlers p
  return .tryBlock body hs line

/-- An access modifier if one is next. -/
def access? : Parser (Option Access) :=
  optionally (fun t => Access.ofWord? t.text) fun _ a => do
    skip
    return a

/-- The modifiers `virtual` and `override`, of which a member has one at most. -/
def modifiers : Parser (Bool × Bool) := do
  if ← accept "virtual" then return (true, false)
  else return (false, ← accept "override")

/-- The rest of a method after `function`. -/
def method (p : Inner) (access : Access) (flags : Bool × Bool) (line : Nat) : Parser Member := do
  let m ← name .method
  let ps ← params
  let body ← block p
  return .method m access ps body flags.1 flags.2 line

def field (p : Inner) (access : Access) (line : Nat) : Parser Member := do
  let x ← name .field
  let initializer ← assigned? p.expression
  expect ";"
  return .field x access initializer line

/-- A field or a method; a member without an access modifier is private. -/
def member (p : Inner) : Parser Member := do
  let line ← currentLine
  let word ← access?
  let flags ← modifiers
  match ← after "function" (method p (word.getD .privateAccess) flags line) with
  | some m => return m
  | none => field p (word.getD .privateAccess) line

def classDecl (p : Inner) (line : Nat) : Parser Stmt := do
  let c ← name .className
  let base ← after "extends" (name .baseClass)
  let interfaces ← after "implements" (commaSeparated (name .interface))
  let members ← inBraces (member p)
  return .classDecl c base (interfaces.getD []) members line

/-- A signature; an access modifier before it is allowed and ignored. -/
def signature : Parser Signature := do
  let line ← currentLine
  let _ ← access?
  expect "function"
  let m ← name .method
  let ps ← params
  endSimple
  return ⟨m, ps, line⟩

def interfaceDecl (line : Nat) : Parser Stmt := do
  let i ← name .interface
  let methods ← inBraces signature
  return .interfaceDecl i methods line

/-- A statement that is one word. -/
def lone (s : Stmt) : Parser Stmt := do
  endSimple
  return s

/-- A simple statement and its end. -/
def simpleStatement (p : Inner) : Parser Stmt := do
  let s ← simple p.expression
  endSimple
  return .simple s

/-- Whether a token after `print` makes it a name like any other. -/
def continuesName (t : Token) : Bool :=
  t.text == "(" || t.text == "=" || t.text == "."

/-- What follows a keyword that makes a statement of its own. -/
def afterStatementWord? (p : Inner) (t : Token) : Option (Parser Stmt) :=
  match t.text with
  | "class" => some (classDecl p t.line)
  | "interface" => some (interfaceDecl t.line)
  | "function" => some (function p t.line)
  | "if" => some (conditional p t.line)
  | "while" => some (whileLoop p t.line)
  | "for" => some (forLoop p t.line)
  | "return" => some (returnValue p t.line)
  | "try" => some (tryBlock p t.line)
  | "throw" => some (valueStatement p (.throwValue · t.line))
  | "import" => some (importModule t.line)
  | "break" => some (lone (.breakLoop t.line))
  | "continue" => some (lone (.continueLoop t.line))
  | _ => none

/-- Keywords that start an expression. -/
def expressionWords : List String :=
  ["this", "super", "new", "true", "false", "null"]

/-- A statement that starts with the keyword `t`. -/
def keywordStatement (p : Inner) (t : Token) : Parser Stmt :=
  pastFirst (afterStatementWord? p t) <|
    if expressionWords.contains t.text then simpleStatement p else fail .statement

/-- Whether `first` is a `print` that `second` does not make a name like any other. -/
def startsPrint (first : Token) (second : Option Token) : Bool :=
  first.kind = .identifier && first.text == "print" && second.any (!continuesName ·)

def statementStep (p : Inner) : Parser Stmt := do
  let first ← peek
  let second ← peekSecond
  match first with
  | none => fail .statement
  | some t =>
    if t.kind = .keyword then keywordStatement p t
    else if startsPrint t second then do skip; valueStatement p (.print · t.line)
    else simpleStatement p

/-- A statement in which at most `depth` statements and expressions lie inside each other. -/
def statement : Nat → Parser Stmt
  | 0 => tooDeep
  | depth + 1 => statementStep ⟨expression depth, statement depth⟩

/-- Statements up to the end of the tokens. -/
def programOf (statement : Parser Stmt) : Parser Program := do
  skipSeparators
  let statements ← many (whenNext (fun _ => true) fun _ => separated statement)
  return ⟨statements⟩

def program (depth : Nat) : Parser Program :=
  programOf (statement depth)

end Parser

end ClassScript
