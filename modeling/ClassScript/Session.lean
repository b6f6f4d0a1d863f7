import ClassScript.Eval
import ClassScript.Report

/-!
# Sessions

A session runs sources one after another against one context. Every run starts and ends at the top
level, and its report shows the output of that run alone.
-/

namespace ClassScript

/-- What a run is allowed. -/
structure Limits where
  steps : Nat
  /-- How many calls and instantiations may lie inside each other. -/
  callDepth : Nat
  /-- How many statements and expressions may lie inside each other in a source. -/
  syntaxDepth : Nat

/-- More steps than any run takes, and as much nesting as the machine stack holds. An interpreter on
a recursive host has one limit instead, of 40000 frames, for all that nests: also for chains of
prefix operators, for the evaluation of long operator trees and for imports inside each other, which
count for nothing here. -/
def Limits.standard : Limits := ⟨1000000000000000000, 2500, 2000⟩

structure Session where
  files : Files
  /-- Where imports are looked up; without it, in the working directory. -/
  directory : Option String
  /-- Whether reports show the output; otherwise it only goes to the transcript. -/
  captures : Bool
  limits : Limits
  context : Context
  /-- Everything written by all runs. -/
  transcript : String

namespace Session

def start (files : Files) (directory : Option String) (captures : Bool) (input : String) :
    Session :=
  ⟨files, directory, captures, .standard, .initial input, ""⟩

/-- The names of the import directory; none for one that cannot be seen. -/
def importDirectory (directory : Option String) : Option (List String) :=
  match directory with
  | none => some []
  | some path => if Files.isAbsolute path then none else some (Files.segments path)

def environment (s : Session) (debug : Bool) : Environment :=
  ⟨s.files, importDirectory s.directory, s.limits.callDepth, s.limits.syntaxDepth, debug⟩

/-- The context a run starts from. -/
def fresh (s : Session) : Context :=
  { s.context with frame := .top, output := "", log := [] }

/-- Keeps a context after a run. -/
def keep (s : Session) (c : Context) : Session :=
  { s with context := { c with frame := .top }, transcript := s.transcript ++ c.output }

/-- The output of a run as its report shows it. -/
def shownOutput (s : Session) (c : Context) : String :=
  if s.captures then c.output else ""

/-- Runs a source. -/
def run (s : Session) (debug : Bool) (source : String) : Report × Session :=
  let env := s.environment debug
  match parseLogged env source s.fresh with
  | (.error stop, c) => (.ofStop (s.shownOutput c) (some source) stop, s.keep c)
  | (.ok program, c) =>
    match execProgram env s.limits.steps program c with
    | (.error stop, c') => (.ofStop (s.shownOutput c') none stop, s.keep c')
    | (.ok (.returning v), c') => (.success (s.shownOutput c') v, s.keep c')
    | (.ok _, c') => (.success (s.shownOutput c') .null, s.keep c')

/-- Runs the text of a file. -/
def runFile (s : Session) (path : String) : Except OpenError (Report × Session) :=
  (s.files.openText path).map fun text => s.run false text

/-- Executes the statements of a source and answers how the last of them ended. -/
def execute (s : Session) (source : String) : Except Stop Outcome × Session :=
  let env := s.environment false
  let whole : Run Outcome := do
    let program ← parseLogged env source
    (evaluators env s.limits.steps).execAll program.statements
  match whole { s.context with output := "", log := [] } with
  | (result, c) => (result, s.keep c)

/-- A global that is an object or a bound method, as a debugger shows it; the fields of an object
are listed in the order of their first assignment. -/
def describe? (s : Session) (name : String) : Option String :=
  (s.context.globals.get? name).map fun v =>
    match v with
    | .object self =>
      "<ObjectInstance " ++ self.className ++ " fields=[" ++
        String.intercalate ", " (s.context.fieldsOf self).keys ++ "]>"
    | .method _ receiver method => "<BoundMethod " ++ receiver.className ++ "." ++ method ++ ">"
    | other => other.nestedText

/-- Whether code of a call, an object or a class is running. -/
def isInCall (s : Session) : Bool :=
  s.context.frame.scope.isSome || s.context.frame.self.isSome || s.context.frame.owner.isSome

end Session

end ClassScript
