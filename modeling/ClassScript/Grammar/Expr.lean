import ClassScript.Decimal.Reading
import ClassScript.Grammar.Basic
import ClassScript.Text.Literal

/-!
# Expressions

From loose to tight: `||`, `&&`, equality, comparison, sums, products, prefix operators, and member
access after a primary expression. Binary operators of one level associate to the left.
-/

namespace ClassScript

namespace Parser

def unaryOp? (t : Token) : Option UnaryOp :=
  if t.kind = .operator ∨ t.kind = .logical then
    match t.text with
    | "-" => some .minus
    | "+" => some .plus
    | "!" => some .not
    | _ => none
  else none

def binaryOp? (t : Token) : Option BinaryOp :=
  if t.kind = .string then none else BinaryOp.ofSymbol? t.text

/-- Prefix operators before an operand, the outermost first. However many there are, they do not
count as expressions inside each other. -/
def unary (operand : Parser Expr) : List Token → Except ParseFailure (Expr × List Token)
  | [] => operand []
  | t :: ts =>
    match unaryOp? t with
    | some op => do
      let (e, rest) ← unary operand ts
      return (.unary op e t.line, rest)
    | none => operand (t :: ts)

/-- The operator of the given level that a token is. -/
def operatorOf? (level : Nat) (t : Token) : Option BinaryOp :=
  (binaryOp? t).filter fun op => op.level = level

/-- One more operator of the level and its right operand, if such an operator is next. -/
def chainStep (level : Nat) (operand : Parser Expr) (left : Expr) : Parser (Option Expr) :=
  optionally (operatorOf? level) fun t op => do
    skip
    let right ← operand
    return .binary op left right t.line

/-- Operands joined by operators of one level. -/
def chain (level : Nat) (operand : Parser Expr) : Parser Expr := do
  let first ← operand
  repeated (chainStep level operand) first

/-- Operators of the first `levels` levels over an operand. -/
def binary (operand : Parser Expr) : Nat → Parser Expr
  | 0 => operand
  | levels + 1 => chain levels (binary operand levels)

/-- The arguments of a call, if an opening parenthesis is next. -/
def arguments? (expression : Parser Expr) : Parser (Option (List Expr)) :=
  whenNext (Token.isText · "(") fun _ => parenthesized expression

/-- What follows the point after an expression: a member, or a method and its arguments. -/
def afterPoint (expression : Parser Expr) (target : Expr) (line : Nat) : Parser Expr := do
  let member ← name .member
  match ← arguments? expression with
  | some args => return .methodCall target member args line
  | none => return .member target member line

/-- One member access, or call of a method, after an expression. -/
def postfixStep (expression : Parser Expr) (target : Expr) : Parser (Option Expr) :=
  whenNext (Token.isText · ".") fun dot => do
    skip
    afterPoint expression target dot.line

/-- The rest of `new C`, with or without an empty argument list. -/
def newObject (line : Nat) : Parser Expr := do
  let className ← name .className
  let _ ← after "(" (expect ")")
  return .new className line

/-- The rest of `super.m(...)`. -/
def superCall (expression : Parser Expr) (line : Nat) : Parser Expr := do
  expect "."
  let method ← name .method
  let args ← parenthesized expression
  return .superCall method args line

/-- What follows a keyword that starts an expression. -/
def afterKeyword? (expression : Parser Expr) (t : Token) : Option (Parser Expr) :=
  match t.text with
  | "true" => some (return .boolean true t.line)
  | "false" => some (return .boolean false t.line)
  | "null" => some (return .null t.line)
  | "this" => some (return .var "this" t.line)
  | "new" => some (newObject t.line)
  | "super" => some (superCall expression t.line)
  | _ => none

/-- The value of a number token, whose text always reads as a number. -/
def numberValue (text : String) : Float :=
  (Decimal.readFloat? text).getD 0

/-- What follows a name: the arguments of a call, or nothing. -/
def afterName (expression : Parser Expr) (t : Token) : Parser Expr := do
  match ← whenNext (·.kind = .lparen) fun _ => parenthesized expression with
  | some args => return .call t.text args t.line
  | none => return .var t.text t.line

/-- What follows an opening parenthesis. -/
def closing (expression : Parser Expr) : Parser Expr := do
  let e ← expression
  expect ")"
  return e

/-- What follows the first token of a primary expression; none when it cannot start one. -/
def afterFirst? (expression : Parser Expr) (t : Token) : Option (Parser Expr) :=
  match t.kind with
  | .number => some (return .number (numberValue t.text) t.line)
  | .string => some (return .text (Text.unescape t.text) t.line)
  | .identifier => some (afterName expression t)
  | .lparen => some (closing expression)
  | .keyword => afterKeyword? expression t
  | _ => none

def primary (expression : Parser Expr) : Parser Expr := do
  match ← peek with
  | none => fail .expression
  | some t => pastFirst (afterFirst? expression t) (fail .expression)

/-- A primary expression and the member accesses after it. -/
def operand (expression : Parser Expr) : Parser Expr := do
  let first ← primary expression
  repeated (postfixStep expression) first

/-- An expression, given the parser for those inside it. -/
def expressionStep (inner : Parser Expr) : Parser Expr :=
  binary (unary (operand inner)) BinaryOp.levels

/-- An expression in which at most `depth` expressions lie inside each other. -/
def expression : Nat → Parser Expr
  | 0 => tooDeep
  | depth + 1 => expressionStep (expression depth)

end Parser

end ClassScript
