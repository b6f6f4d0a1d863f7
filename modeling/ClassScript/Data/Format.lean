import ClassScript.Data.Json.Reader
import ClassScript.Data.Json.Writer
import ClassScript.Data.Yaml.Reader
import ClassScript.Data.Yaml.Writer

/-!
# Data formats by name

The JSON codec goes from container to container by recursion, so a limit on the recursion is a limit
on the nesting of the data it writes and reads. Past the limit both refuse. The limit counts
containers that lie inside each other, and is a round number below what the host leaves for them.
The YAML codec has no limit here.
-/

namespace ClassScript

inductive Format where
  | json
  | yaml
  deriving DecidableEq

inductive FormatError where
  | unsupported (name : Option String)
  | malformed (format : Format)
  /-- Containers nest deeper than the codec goes. -/
  | tooDeep
  deriving DecidableEq

namespace FormatError

def message : FormatError → String
  | unsupported name =>
    "Unsupported serialization format: " ++ ((name.map Text.quoted).getD "None")
  | malformed .json => "not a JSON text"
  | malformed .yaml => "not a YAML text of the block style"
  | tooDeep => "maximum recursion depth exceeded"

end FormatError

namespace Format

/-- Finds a format by its name in any case. -/
def ofName (name : Option String) : Except FormatError Format :=
  match (name.getD "").toList.map Char.toLower with
  | ['j', 's', 'o', 'n'] => .ok .json
  | ['y', 'a', 'm', 'l'] => .ok .yaml
  | _ => .error (.unsupported name)

/-- How many containers may lie inside each other. -/
def nestingLimit : Nat := 900

/-- The text of data, however deep it nests; YAML has one layout only. -/
def serialize (f : Format) (pretty : Bool) (d : Data) : String :=
  match f with
  | json => Json.render pretty d
  | yaml => Yaml.render d

/-- Writes data that nests no deeper than the codec goes. -/
def serializeWithin (f : Format) (nesting : Nat) (pretty : Bool) (d : Data) :
    Except FormatError String :=
  match f with
  | json => if d.depth ≤ nesting then .ok (json.serialize pretty d) else .error .tooDeep
  | yaml => .ok (yaml.serialize pretty d)

/-- Reads a text whose data nests no deeper than the codec goes. -/
def deserializeWithin (f : Format) (nesting : Nat) (text : String) : Except FormatError Data :=
  match f with
  | json =>
    match Json.parse nesting text with
    | .ok d => .ok d
    | .error .malformed => .error (.malformed .json)
    | .error .tooDeep => .error .tooDeep
  | yaml =>
    match Yaml.parse? text with
    | some d => .ok d
    | none => .error (.malformed .yaml)

def deserialize (f : Format) (text : String) : Except FormatError Data :=
  f.deserializeWithin nestingLimit text

end Format

/-- Reads a text in one format and writes it in another; the source format is looked at first. -/
def convert (text : String) (source target : Option String) (pretty : Bool) :
    Except FormatError String := do
  let f ← Format.ofName source
  let d ← f.deserialize text
  let g ← Format.ofName target
  g.serializeWithin Format.nestingLimit pretty d

end ClassScript
