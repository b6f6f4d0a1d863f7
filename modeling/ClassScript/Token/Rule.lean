import ClassScript.Text.Blank
import ClassScript.Text.Numeral
import ClassScript.Token

/-!
# Lexical rules

A rule says how many characters at the front of a text it takes; zero means that it does not apply.
The rules are listed by priority, and the first that applies wins: comments come before the slash,
comparisons before the assignment sign, keywords before identifiers.

A word rule looks at the whole run of word characters, so that no token ends inside a word.
-/

namespace ClassScript

structure Rule where
  /-- The kind of token the rule makes; blanks and comments make none. -/
  kind : Option TokenKind
  /-- How many characters the rule takes from the front of the text. -/
  extent : List Char → Nat

namespace Rule

def keywords : List String :=
  ["class", "function", "if", "else", "while", "for", "return", "import", "new", "try", "catch",
   "throw", "finally", "public", "private", "protected", "virtual", "override", "extends", "this",
   "super", "interface", "implements", "break", "continue", "true", "false", "null"]

/-- The run of word characters at the front. -/
def word (cs : List Char) : List Char :=
  cs.takeWhile Text.isWordChar

def startsWord (cs : List Char) : Bool :=
  (cs.head?.map Text.isWordChar).getD false

def isNameStart (c : Char) : Bool :=
  c == '_' || c.isAlpha

def isNameChar (c : Char) : Bool :=
  c == '_' || c.isAlphanum

def blanks (cs : List Char) : Nat :=
  (cs.takeWhile Text.isBlank).length

def comment : List Char → Nat
  | '/' :: '/' :: cs => 2 + (cs.takeWhile (· != '\n')).length
  | _ => 0

def keyword (cs : List Char) : Nat :=
  if keywords.contains (String.ofList (word cs)) then (word cs).length else 0

/-- A word of ASCII letters, digits and underscores that does not start with a digit. -/
def identifier (cs : List Char) : Nat :=
  match word cs with
  | [] => 0
  | c :: rest => if isNameStart c && rest.all isNameChar then rest.length + 1 else 0

/-- Digits with an optional fraction. The fraction counts only when no word character follows it;
otherwise the digits before the point stand alone. -/
def number (cs : List Char) : Nat :=
  let whole := cs.takeWhile Text.isDigit
  let rest := cs.dropWhile Text.isDigit
  if whole.isEmpty then 0
  else match rest with
    | '.' :: ds =>
      let fraction := ds.takeWhile Text.isDigit
      if fraction.isEmpty || startsWord (ds.dropWhile Text.isDigit) then whole.length
      else whole.length + 1 + fraction.length
    | _ => if startsWord rest then 0 else whole.length

/-- The length of a string literal after its opening quote. A backslash takes the next character
with it, whatever it is except a line feed; an unclosed literal is none. -/
def stringBody : List Char → Option Nat
  | [] => none
  | '"' :: _ => some 1
  | '\\' :: [] => none
  | '\\' :: c :: cs => if c = '\n' then none else (stringBody cs).map (· + 2)
  | _ :: cs => (stringBody cs).map (· + 1)

def string : List Char → Nat
  | '"' :: cs => ((stringBody cs).map (· + 1)).getD 0
  | _ => 0

def comparison : List Char → Nat
  | '=' :: '=' :: _ => 2
  | '!' :: '=' :: _ => 2
  | '<' :: '=' :: _ => 2
  | '>' :: '=' :: _ => 2
  | '<' :: _ => 1
  | '>' :: _ => 1
  | _ => 0

def logical : List Char → Nat
  | '&' :: '&' :: _ => 2
  | '|' :: '|' :: _ => 2
  | '!' :: _ => 1
  | _ => 0

/-- One character out of a set. -/
def oneOf (set : List Char) : List Char → Nat
  | c :: _ => if set.contains c then 1 else 0
  | [] => 0

/-- All rules, by priority. -/
def all : List Rule :=
  [⟨none, blanks⟩, ⟨none, comment⟩,
   ⟨some .keyword, keyword⟩, ⟨some .identifier, identifier⟩,
   ⟨some .number, number⟩, ⟨some .string, string⟩,
   ⟨some .comparison, comparison⟩, ⟨some .logical, logical⟩,
   ⟨some .operator, oneOf ['+', '-', '*', '/', '%']⟩,
   ⟨some .assign, oneOf ['=']⟩, ⟨some .separator, oneOf [';']⟩,
   ⟨some .lparen, oneOf ['(']⟩, ⟨some .rparen, oneOf [')']⟩,
   ⟨some .lbrace, oneOf ['\x7b']⟩, ⟨some .rbrace, oneOf ['\x7d']⟩,
   ⟨some .dot, oneOf ['.']⟩, ⟨some .comma, oneOf [',']⟩]

/-- The rule that applies at the front of a text. -/
def first? (cs : List Char) : Option Rule :=
  all.find? fun r => r.extent cs != 0

theorem extent_pos_of_first? {cs : List Char} {r : Rule} (h : first? cs = some r) :
    0 < r.extent cs := by
  have := List.find?_some h
  simp only [bne_iff_ne, ne_eq] at this
  omega

end Rule

end ClassScript
