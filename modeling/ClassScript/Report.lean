import ClassScript.Excerpt
import ClassScript.Run
import ClassScript.Value.Text

/-!
# Reports

What a run hands back: a value, or the kind of the failure with its message, its place, the thrown
value and the calls that were active.
-/

namespace ClassScript

inductive Status where
  | success
  | error
  deriving DecidableEq

inductive ErrorKind where
  | lex
  | parse
  | fault
  | exception
  | internal
  deriving DecidableEq

def ErrorKind.name : ErrorKind → String
  | lex => "lex"
  | parse => "parse"
  | fault => "fault"
  | exception => "exception"
  | internal => "internal"

structure Report where
  status : Status
  value : Value
  output : String
  kind : Option ErrorKind
  message : Option String
  line : Option Nat
  column : Option Nat
  exceptionValue : Value
  /-- The active calls, most recent first. -/
  stackTrace : List String
  /-- What was wrong with the source, when that was it. -/
  detail : Option SourceError

namespace Report

def success (output : String) (value : Value) : Report :=
  { status := .success, value, output, kind := none, message := none, line := none,
    column := none, exceptionValue := .null, stackTrace := [], detail := none }

/-- A failure without a place. -/
def failure (output : String) (kind : ErrorKind) (message : String) (stackTrace : List String) :
    Report :=
  { status := .error, value := .null, output, kind := some kind, message := some message,
    line := none, column := none, exceptionValue := .null, stackTrace, detail := none }

/-- The message of a source error, followed by an excerpt when the source is at hand. -/
def sourceMessage (message : String) (source : Option String) (line column : Option Nat) :
    String :=
  match source, line with
  | some text, some l =>
    let shown := excerpt text l (column.map Int.ofNat) messageRadius
    if shown.isEmpty then message else message ++ "\n" ++ shown
  | _, _ => message

def ofSourceError (output : String) (source : Option String) (e : SourceError) : Report :=
  let (kind, message, line, column) := match e with
    | .lex err =>
      (ErrorKind.lex, "LexError: " ++ err.message, some err.line, some err.column)
    | .parse err =>
      (ErrorKind.parse, "ParseError: " ++ err.message, err.line, err.column)
  { failure output kind (sourceMessage message source line column) [] with
    line, column, detail := some e }

def ofFault (output : String) (f : Fault) : Report :=
  { failure output .fault (f.cause.kind ++ ": " ++ f.cause.message) (f.trace.getD []) with
    line := f.line }

def ofRaised (output : String) (v : Value) (trace : List String) : Report :=
  { failure output .exception ("Uncaught exception: " ++ v.toText) trace with
    exceptionValue := v }

/-- The report of a run that stopped; `source` is the text to quote from. -/
def ofStop (output : String) (source : Option String) : Stop → Report
  | .raised v trace => ofRaised output v trace
  | .fault f => ofFault output f
  | .malformed e => ofSourceError output source e
  | .overflow calls => failure output .internal "InternalError: nesting too deep" calls
  | .badIndex => failure output .internal "InternalError: class index out of range" []
  | .exhausted => failure output .internal "InternalError: step budget used up" []

def traceLines (frames : List String) : List String :=
  frames.map fun frame => "  at " ++ frame

/-- How a message names its place, unless it does so already. -/
def placedMessage (message : String) (line column : Option Nat) : String :=
  match line with
  | some l =>
    if "Error on line ".toList.isPrefixOf message.toList then message
    else
      let place := match column with
        | some c => ", col " ++ toString c
        | none => ""
      "Error on line " ++ toString l ++ place ++ ": " ++ message
  | none => message

/-- The failure as the command line shows it. -/
def formatError (r : Report) : String :=
  match r.status with
  | .success => ""
  | .error =>
    if r.kind = some .exception then
      String.intercalate "\n"
        (("Uncaught exception: " ++ r.exceptionValue.toText) :: traceLines r.stackTrace)
    else
      let message := match r.message with
        | some m => if m.isEmpty then "Unknown error" else m
        | none => "Unknown error"
      let placed := placedMessage message r.line r.column
      if r.stackTrace.isEmpty then placed
      else placed ++ "\nStack trace:\n" ++ String.intercalate "\n" (traceLines r.stackTrace)

end Report

end ClassScript
