import ClassScript.Data.Format

/-!
# Command line arguments

One optional file, the option `--dump-classes` with the name of a format, and the request for help.
A long option may be cut short and may carry its value behind an equals sign; `--` ends the
options. What looks like a negative number or holds a space is no option.
-/

namespace ClassScript

namespace CommandLine

structure Arguments where
  file : Option String
  dumpClasses : Option Format
  deriving DecidableEq

/-- Why the arguments ask for no run. -/
inductive Refusal where
  | help
  | usage
  deriving DecidableEq

/-- How a single argument reads before `--`. -/
inductive Reading where
  | positional
  | help
  | dump (value : Option (List Char))
  | invalid
  | unknown
  deriving DecidableEq

def helpOption : List Char := "--help".toList

def dumpOption : List Char := "--dump-classes".toList

/-- Splits at the first equals sign. -/
def splitValue (cs : List Char) : List Char × Option (List Char) :=
  match cs.dropWhile (· != '=') with
  | [] => (cs, none)
  | _ :: value => (cs.takeWhile (· != '='), some value)

/-- Digits with an optional fraction behind a minus sign. -/
def isNegativeNumber : List Char → Bool
  | '-' :: cs =>
    let rest := cs.dropWhile Text.isDigit
    match rest with
    | [] => !cs.isEmpty
    | '.' :: fraction => !fraction.isEmpty && fraction.all Text.isDigit
    | _ => false
  | _ => false

/-- An argument that starts with a dash and matches no option. -/
def readUnmatched (cs : List Char) : Reading :=
  if isNegativeNumber cs || cs.contains ' ' then .positional else .unknown

/-- Letters behind `-h`: each of them is an option of its own. -/
def readShortHelp (cs : List Char) : Reading :=
  if cs.all (· == 'h') then .help else .invalid

def readLong (cs : List Char) : Reading :=
  let (name, value) := splitValue cs
  let isHelp := name.isPrefixOf helpOption
  let isDump := name.isPrefixOf dumpOption
  if isHelp && isDump then .invalid
  else if isHelp then (if value.isSome then .invalid else .help)
  else if isDump then .dump value
  else readUnmatched cs

def readArgument (arg : String) : Reading :=
  match arg.toList with
  | '-' :: '-' :: cs => readLong ('-' :: '-' :: cs)
  | '-' :: 'h' :: cs => readShortHelp cs
  | ['-'] => .positional
  | '-' :: cs => readUnmatched ('-' :: cs)
  | _ => .positional

/-- What has been read so far; `surplus` when an argument had no place. -/
structure Progress where
  file : Option String
  dumpClasses : Option Format
  surplus : Bool

def Progress.addPositional (p : Progress) (arg : String) : Progress :=
  match p.file with
  | none => { p with file := some arg }
  | some _ => { p with surplus := true }

def Progress.finish (p : Progress) : Except Refusal Arguments :=
  if p.surplus then .error .usage else .ok ⟨p.file, p.dumpClasses⟩

/-- The formats the class graph can be dumped in; their names are matched exactly. -/
def dumpFormat? (name : String) : Option Format :=
  if name == "json" then some .json else if name == "yaml" then some .yaml else none

def Progress.setDump (p : Progress) (value : String) : Except Refusal Progress :=
  match dumpFormat? value with
  | some f => .ok { p with dumpClasses := some f }
  | none => .error .usage

/-- Arguments after `--` are all positional. -/
def readPositionals (p : Progress) (args : List String) : Except Refusal Arguments :=
  (args.foldl Progress.addPositional p).finish

/-- Reads the arguments from left to right; a refusal takes effect where it is met. -/
def readArguments (p : Progress) : List String → Except Refusal Arguments
  | [] => p.finish
  | "--" :: rest => readPositionals p rest
  | arg :: rest =>
    match readArgument arg with
    | .positional => readArguments (p.addPositional arg) rest
    | .help => .error .help
    | .invalid => .error .usage
    | .unknown => readArguments { p with surplus := true } rest
    | .dump (some value) =>
      match p.setDump (String.ofList value) with
      | .ok q => readArguments q rest
      | .error r => .error r
    | .dump none =>
      match rest with
      | [] => .error .usage
      | ["--"] => .error .usage
      | "--" :: value :: rest' =>
        match p.setDump value with
        | .ok q => readPositionals q rest'
        | .error r => .error r
      | value :: rest' =>
        match readArgument value with
        | .positional =>
          match p.setDump value with
          | .ok q => readArguments q rest'
          | .error r => .error r
        | _ => .error .usage

def parseArguments (args : List String) : Except Refusal Arguments :=
  readArguments ⟨none, none, false⟩ args

end CommandLine

end ClassScript
