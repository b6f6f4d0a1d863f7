import ClassScript.CommandLine

/-!
# The program

Reads the standard input, the script named on the command line and the modules of the working
directory, and leaves everything else to `CommandLine.run`. Input is read whole before the first
line runs, so an interactive session is a batch.
-/

namespace ClassScript.CommandLine

/-- All lines up to the end of the input. -/
partial def readRest (stream : IO.FS.Stream) (text : String) : IO String := do
  let line ← stream.getLine
  if line.isEmpty then return text else readRest stream (text ++ line)

/-- The text of a file, unless it cannot be read. -/
def readIfFile (name : String) : IO (List (String × String)) := do
  try
    return [(name, ← IO.FS.readFile name)]
  catch _ => return []

/-- The modules of the working directory and the files named by the arguments. -/
def visibleFiles (args : List String) : IO Files := do
  let root ← IO.currentDir
  let entries ← root.readDir
  let modules := entries.toList.map (·.fileName) |>.filter fun name =>
    suffix name == extension
  let texts ← (args ++ modules).mapM readIfFile
  return .ofList root.toString texts.flatten

def usageLine : String :=
  "usage: mycs [-h] [--dump-classes \x7bjson,yaml\x7d] [file]"

end ClassScript.CommandLine

open ClassScript CommandLine

def main (args : List String) : IO UInt32 := do
  let files ← visibleFiles args
  let input ← readRest (← IO.getStdin) ""
  match CommandLine.run args files input with
  | .usage code =>
    IO.eprintln usageLine
    return code.toUInt32
  | .finished exit =>
    IO.print exit.stdout
    IO.eprint exit.stderr
    return exit.code.toUInt32
