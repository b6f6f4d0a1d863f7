import ClassScript.Syntax
import ClassScript.Token

/-!
# Parsers over tokens

A parser takes tokens from the front of a list. It fails at the first token that cannot continue
what it has read, and then says what it expected there. Nesting is limited: a parser that would
have to go deeper than it is allowed fails in a way of its own.
-/

namespace ClassScript

/-- What a name is wanted for. -/
inductive NameRole where
  | parameter
  | function
  | module
  | exceptionVariable
  | className
  | baseClass
  | interface
  | method
  | field
  | member
  deriving DecidableEq

def NameRole.describe : NameRole → String
  | parameter => "parameter name"
  | function => "function name"
  | module => "module name"
  | exceptionVariable => "exception variable"
  | className => "class name"
  | baseClass => "base class name"
  | interface => "interface name"
  | method => "method name"
  | field => "field name"
  | member => "member name"

/-- What a parser would have gone on with. -/
inductive Expectation where
  | symbol (text : String)
  | name (role : NameRole)
  | statement
  | expression
  | handler
  deriving DecidableEq

def Expectation.describe : Expectation → String
  | symbol text => "'" ++ text ++ "'"
  | name role => role.describe
  | statement => "a statement"
  | expression => "an expression"
  | handler => "'catch' or 'finally'"

/-- The first structural error: what was expected and the tokens that were there instead. -/
structure ParseError where
  expected : Expectation
  rest : List Token
  deriving DecidableEq

namespace ParseError

/-- The offending token; none at the end of the input. -/
def found (e : ParseError) : Option Token := e.rest.head?

def line (e : ParseError) : Option Nat := e.found.map Token.line

def column (e : ParseError) : Option Nat := e.found.map Token.column

def message (e : ParseError) : String :=
  "Expected " ++ e.expected.describe ++ " but found " ++
    Text.quoted ((e.found.map Token.text).getD "end of input")

end ParseError

inductive ParseFailure where
  | unexpected (error : ParseError)
  | tooDeep
  deriving DecidableEq

/-- Reads from the front of the tokens and leaves the rest. -/
abbrev Parser := StateT (List Token) (Except ParseFailure)

namespace Parser

variable {α β : Type}

theorem bind_apply (p : Parser α) (k : α → Parser β) (ts : List Token) :
    (p >>= k) ts = match p ts with
      | .ok (a, rest) => k a rest
      | .error e => .error e := by
  change Except.bind (p ts) (fun x => k x.1 x.2) = _
  cases p ts <;> rfl

@[simp] theorem pure_apply (a : α) (ts : List Token) : (pure a : Parser α) ts = .ok (a, ts) := rfl

def fail (expected : Expectation) : Parser α :=
  fun ts => .error (.unexpected ⟨expected, ts⟩)

def tooDeep : Parser α :=
  fun _ => .error .tooDeep

/-- The next token, which stays. -/
def peek : Parser (Option Token) :=
  fun ts => .ok (ts.head?, ts)

/-- The token after the next. -/
def peekSecond : Parser (Option Token) :=
  fun ts => .ok (ts.tail.head?, ts)

/-- Drops the next token. -/
def skip : Parser Unit :=
  fun ts => .ok ((), ts.tail)

/-- The line of the next token; callers ask for it only where a token follows. -/
def currentLine : Parser Nat :=
  fun ts => .ok ((ts.head?.map Token.line).getD 0, ts)

end Parser

/-- Whether the token is the given word or symbol; a string literal never is. -/
def Token.isText (t : Token) (text : String) : Bool :=
  t.kind != .string && t.text == text

namespace Parser

variable {α β : Type}

/-- Whether the next token is the given word or symbol. -/
def check (text : String) : Parser Bool :=
  fun ts => .ok ((ts.head?.map (Token.isText · text)).getD false, ts)

/-- Takes the given word or symbol if it is next. -/
def accept (text : String) : Parser Bool := do
  if ← check text then
    skip
    return true
  else return false

/-- Takes the given word or symbol, which has to be next. -/
def expect (text : String) : Parser Unit := do
  if ← check text then skip else fail (.symbol text)

/-- Takes a name. -/
def name (role : NameRole) : Parser String := do
  match ← peek with
  | some t =>
    if t.kind = .identifier then
      skip
      return t.text
    else fail (.name role)
  | none => fail (.name role)

/-- What `p` reads if the next token is one that is wanted here. -/
def optionally (wanted : Token → Option β) (p : Token → β → Parser α) : Parser (Option α) := do
  match ← peek with
  | none => return none
  | some t =>
    match wanted t with
    | none => return none
    | some b => return some (← p t b)

/-- What `p` reads if the next token passes the test. -/
def whenNext (test : Token → Bool) (p : Token → Parser α) : Parser (Option α) :=
  optionally (Option.guard test) fun t _ => p t

/-- What follows the given word or symbol, if that is next. -/
def after (text : String) (p : Parser α) : Parser (Option α) :=
  whenNext (Token.isText · text) fun _ => do
    skip
    p

/-- Goes past the next token if something may follow it. -/
def pastFirst (rest? : Option (Parser α)) (otherwise : Parser α) : Parser α :=
  match rest? with
  | some rest => do skip; rest
  | none => otherwise

/-- Repeats `step` on a result until it declines, at most once for each token of `bound`. -/
def iterate (step : α → Parser (Option α)) : List Token → α → Parser α
  | [], a => pure a
  | _ :: bound, a => do
    match ← step a with
    | none => pure a
    | some b => iterate step bound b

/-- Repeats a step that takes a token each time, so that the tokens left bound the repetition. -/
def repeated (step : α → Parser (Option α)) (a : α) : Parser α := do
  iterate step (← get) a

/-- The results so far and one more of `item`, if it does not decline. -/
def oneMore (item : Parser (Option α)) (as : List α) : Parser (Option (List α)) := do
  return (← item).map fun a => as ++ [a]

/-- The results of an `item` that takes a token each time it does not decline. -/
def many (item : Parser (Option α)) : Parser (List α) :=
  repeated (oneMore item) []

/-- One or more items with commas between them. -/
def commaSeparated (item : Parser α) : Parser (List α) := do
  let first ← item
  let rest ← many (after "," item)
  return first :: rest

/-- Items with commas between them up to a closing parenthesis, possibly none. -/
def listedItems (item : Parser α) : Parser (List α) := do
  if ← check ")" then return [] else commaSeparated item

/-- Items in parentheses with commas between them, possibly none. -/
def parenthesized (item : Parser α) : Parser (List α) := do
  expect "("
  let items ← listedItems item
  expect ")"
  return items

/-- The next item unless the tokens end or a closing brace follows. -/
def unlessClosed (item : Parser α) : Parser (Option α) :=
  whenNext (fun t => !t.isText "\x7d") fun _ => item

/-- Items in braces. -/
def inBraces (item : Parser α) : Parser (List α) := do
  expect "\x7b"
  let items ← many (unlessClosed item)
  expect "\x7d"
  return items

/-- Any number of semicolons. -/
def skipSeparators : Parser Unit := do
  let _ ← many (after ";" (pure ()))

/-- The optional semicolon after a simple statement. -/
def endSimple : Parser Unit := do
  let _ ← accept ";"

end Parser

end ClassScript
