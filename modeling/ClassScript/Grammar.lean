import ClassScript.Grammar.Stmt
import ClassScript.Token.Lexer

/-!
# From a source to its tree

Every step further in takes a token, so a limit of two more than the number of tokens is none.
Running a script uses a fixed limit instead.
-/

namespace ClassScript

/-- Parses a token list whose nesting does not pass `depth`. -/
def parseTokens (depth : Nat) (tokens : List Token) : Except ParseFailure Program :=
  match Parser.program depth tokens with
  | .ok (program, _) => .ok program
  | .error e => .error e

/-- What is wrong with a source. -/
inductive SourceError where
  | lex (error : LexError)
  | parse (error : ParseError)
  deriving DecidableEq

/-- Why a source has no tree. -/
inductive SourceFailure where
  | malformed (error : SourceError)
  | tooDeep
  deriving DecidableEq

/-- Scans and parses a source. -/
def parseSource (depth : Nat) (source : String) : Except SourceFailure Program :=
  match tokenize source with
  | .error e => .error (.malformed (.lex e))
  | .ok tokens =>
    match parseTokens depth tokens with
    | .ok program => .ok program
    | .error (.unexpected e) => .error (.malformed (.parse e))
    | .error .tooDeep => .error .tooDeep

end ClassScript
