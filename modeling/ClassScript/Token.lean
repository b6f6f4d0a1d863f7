import ClassScript.Text.Quoted

/-!
# Tokens

A token is a piece of source text with its kind and the place where it starts.
-/

namespace ClassScript

inductive TokenKind where
  | keyword
  | identifier
  | number
  | string
  | comparison
  | logical
  | operator
  | assign
  | separator
  | lparen
  | rparen
  | lbrace
  | rbrace
  | dot
  | comma
  deriving DecidableEq, Inhabited

namespace TokenKind

def name : TokenKind → String
  | keyword => "keyword"
  | identifier => "identifier"
  | number => "number"
  | string => "string"
  | comparison => "comparison"
  | logical => "logical"
  | operator => "operator"
  | assign => "assign"
  | separator => "separator"
  | lparen => "lparen"
  | rparen => "rparen"
  | lbrace => "lbrace"
  | rbrace => "rbrace"
  | dot => "dot"
  | comma => "comma"

/-- The name in capitals, as the debug log and the display of a token write it. -/
def label (kind : TokenKind) : String :=
  String.ofList (kind.name.toList.map Char.toUpper)

end TokenKind

/-- Lines and columns count from one; a column counts characters. -/
structure Token where
  kind : TokenKind
  text : String
  line : Nat
  column : Nat
  deriving DecidableEq, Inhabited

/-- How a token is displayed. -/
def Token.display (t : Token) : String :=
  "Token(" ++ t.kind.label ++ ", " ++ Text.quoted t.text ++ ", line=" ++ toString t.line ++ ")"

end ClassScript
