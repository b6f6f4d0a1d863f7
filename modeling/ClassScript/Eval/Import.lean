import ClassScript.Eval.Evaluators

/-!
# Imports

A module runs at the top level each time it is imported, without the scope, the object and the owner
of the code that imports it; all else is shared. A module that is still being imported cannot be
imported again.
-/

namespace ClassScript

/-- The ending of a module's file name. -/
def extension : String := ".mycs"

/-- The file a module is looked up in. -/
def modulePath? (env : Environment) (module : String) : Option (List String) :=
  env.directory.bind fun directory => Files.normalize? (directory ++ [module ++ extension])

def logTokens (env : Environment) (tokens : List Token) : Run Unit :=
  tokens.forM fun t =>
    Run.debug env fun _ => "Tokenized: " ++ t.kind.label ++ " " ++ Text.quoted t.text

/-- Scans and parses a source, its tokens going to the debug log. -/
def parseLogged (env : Environment) (source : String) : Run Program := do
  let s := scan source
  logTokens env s.tokens
  match s.error with
  | some e => Run.stop (.malformed (.lex e))
  | none =>
    match parseTokens env.syntaxDepth s.tokens with
    | .ok program => return program
    | .error (.unexpected e) => Run.stop (.malformed (.parse e))
    | .error .tooDeep => Run.stop (.overflow (← get).frame.calls)

/-- The frame a module runs in. -/
def Frame.importing (frame : Frame) (m : ModuleRef) : Frame :=
  { frame with scope := none, self := none, owner := none, imports := m :: frame.imports }

/-- The way out of a module: it is no longer being imported. -/
def Frame.leavingImport (frame : Frame) : Frame :=
  { frame with imports := frame.imports.tail }

/-- The modules from the outermost to the one imported again. -/
def importChain (imports : List ModuleRef) (m : ModuleRef) : List String :=
  ((m :: imports).map ModuleRef.name).reverse

/-- The text of a module and where it was found. -/
def findModule (env : Environment) (module : String) (line : Nat) : Run (ModuleRef × String) := do
  match (modulePath? env module).bind fun path => (env.files.readText? path).map (path, ·) with
  | none => Run.faultAt (.moduleNotFound (module ++ extension)) line
  | some (path, text) => return (⟨module, path⟩, text)

/-- How an import ends when its module has ended; a `return` ends the module and no more. -/
def moduleOutcome (module : String) (line : Nat) : Outcome → Run Outcome
  | .normal | .returning _ => return .normal
  | .breaking | .continuing => Run.faultAt (.loopControlInModule module) line

/-- Runs a module. Imports inside each other are not limited by their number: a module on the way in
is not imported again, so the files bound it. -/
def importModule (env : Environment) (k : Evaluators) (module : String) (line : Nat) :
    Run Outcome := do
  let (m, text) ← findModule env module line
  let imports := (← get).frame.imports
  Run.refuseIf (imports.any fun other => other.path == m.path)
    (.circularImport (importChain imports m)) line
  Run.debug env fun _ => "Importing module " ++ module ++ " from " ++ env.files.display m.path
  let program ← parseLogged env text
  let outcome ←
    Run.inFrame (fun frame => frame.importing m) Frame.leavingImport (k.execAll program.statements)
  moduleOutcome module line outcome

end ClassScript
