import ClassScript.ClassTable.Graph
import ClassScript.CommandLine.Arguments
import ClassScript.Session
import ClassScript.Text.Blank

/-!
# The command line

With a file the program runs it, without one it reads a line at a time and runs each against one
session. The whole of the standard input is given beforehand; prompts and scripts take their lines
from it in turn.
-/

namespace ClassScript

namespace CommandLine

/-- What the program leaves behind. -/
structure Exit where
  code : Nat
  stdout : String
  stderr : String
  deriving DecidableEq

inductive Ending where
  /-- The arguments were refused or asked for help. -/
  | usage (code : Nat)
  | finished (exit : Exit)
  deriving DecidableEq

/-- The ending of a file name: from its last dot, unless the dot is its first or last character. -/
def suffix (name : String) : String :=
  let reversed := name.toList.reverse
  let ending := reversed.takeWhile (· != '.')
  if ending.length + 1 < reversed.length && !ending.isEmpty then
    String.ofList ('.' :: ending.reverse)
  else ""

/-- The text of a script that exists and is named like one. -/
def scriptText? (files : Files) (path : String) : Option String :=
  match (Files.segments path).getLast? with
  | none => none
  | some name =>
    if suffix name == extension then
      match files.openText path with
      | .ok text => some text
      | .error _ => none
    else none

/-- Runs a script file; the class graph is written even when the script fails. -/
def runScript (files : Files) (input path : String) (dump : Option Format) : Exit :=
  match scriptText? files path with
  | none =>
    ⟨1, "", "Error: " ++ path ++ " does not exist or does not end in " ++ extension ++ "\n"⟩
  | some text =>
    let (report, session) := (Session.start files none true input).run false text
    let dumped := match dump with
      | none => ""
      | some f => f.serialize true session.context.classes.graph ++ "\n"
    let stdout := report.output ++ dumped
    match report.status with
    | .success => ⟨0, stdout, ""⟩
    | .error => ⟨1, stdout, report.formatError ++ "\n"⟩

def banner : String :=
  "MYCS REPL v0.1\nType 'exit' or press Ctrl+D to quit.\n"

def prompt : String := ">> "

/-- Reads and runs line after line, at most `bound` of them. -/
def interact : Nat → Session → Exit → Exit
  | 0, _, exit => exit
  | bound + 1, session, exit =>
    match Text.nextLine? session.context.input with
    | none => { exit with stdout := exit.stdout ++ prompt ++ "\nExiting.\n" }
    | some (line, rest) =>
      let session := { session with context := { session.context with input := rest } }
      let exit := { exit with stdout := exit.stdout ++ prompt }
      let source := String.ofList (Text.trimBlanks line)
      if source.isEmpty then interact bound session exit
      else if source == "exit" then exit
      else
        let (report, session) := session.run false source
        let stderr := match report.status with
          | .success => exit.stderr
          | .error => exit.stderr ++ report.formatError ++ "\n"
        interact bound session { exit with stdout := exit.stdout ++ report.output, stderr }

/-- Every line takes at least one character of the input, which bounds their number. -/
def runInteractive (files : Files) (input : String) : Exit :=
  interact (input.length + 1) (Session.start files none true input) ⟨0, banner, ""⟩

/-- An empty file name counts as none. -/
def run (args : List String) (files : Files) (input : String) : Ending :=
  match parseArguments args with
  | .error .help => .usage 0
  | .error .usage => .usage 2
  | .ok arguments =>
    match arguments.file with
    | none | some "" => .finished (runInteractive files input)
    | some path => .finished (runScript files input path arguments.dumpClasses)

end CommandLine

end ClassScript
