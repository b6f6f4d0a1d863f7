import ClassScript.Data
import ClassScript.Decimal.Notation
import ClassScript.Text.Quoted

/-!
# Writing JSON

Either on one line or with every item on a line of its own, two columns further in than its
container. Only quotes, backslashes and control characters are escaped.

`render` is the text of a value however deep it nests; how deep the codec goes is a limit of the
format.
-/

namespace ClassScript.Json

/-- Numbers that are no integers; the words for what is no finite number are an extension. -/
def numbers : Decimal.Notation := ⟨"NaN", "Infinity", 0, false⟩

def escapeChar (c : Char) : List Char :=
  if c == '"' then ['\\', '"']
  else if c == '\\' then ['\\', '\\']
  else if c == '\n' then ['\\', 'n']
  else if c == '\r' then ['\\', 'r']
  else if c == '\t' then ['\\', 't']
  else if c.toNat == 8 then ['\\', 'b']
  else if c.toNat == 12 then ['\\', 'f']
  else if c.toNat < 32 then '\\' :: 'u' :: Text.hexDigits 4 c.toNat
  else [c]

def writeText (s : String) : List Char :=
  '"' :: (s.toList.flatMap escapeChar ++ ['"'])

def writeInt (n : Int) : List Char :=
  match n with
  | .ofNat n => Nat.toDigits 10 n
  | .negSucc n => '-' :: Nat.toDigits 10 (n + 1)

/-- A line end and the indentation of `level`; nothing on one line. -/
def lineBreak (pretty : Bool) (level : Nat) : List Char :=
  if pretty then '\n' :: List.replicate (2 * level) ' ' else []

/-- What stands between two items. -/
def separator (pretty : Bool) (level : Nat) : List Char :=
  if pretty then ',' :: lineBreak pretty level else [',', ' ']

mutual

/-- A value inside `level` containers. -/
def write (pretty : Bool) (level : Nat) : Data → List Char
  | .null => "null".toList
  | .boolean b => if b then "true".toList else "false".toList
  | .int n => writeInt n
  | .float x => (Decimal.writeFloat numbers x).toList
  | .text s => writeText s
  | .list [] => ['[', ']']
  | .list (item :: rest) =>
    '[' :: (lineBreak pretty (level + 1) ++ write pretty (level + 1) item ++
      writeItems pretty (level + 1) rest ++ lineBreak pretty level ++ [']'])
  | .map [] => ['\x7b', '\x7d']
  | .map ((key, value) :: rest) =>
    '\x7b' :: (lineBreak pretty (level + 1) ++ writeText key ++ [':', ' '] ++
      write pretty (level + 1) value ++ writeEntries pretty (level + 1) rest ++
      lineBreak pretty level ++ ['\x7d'])

/-- The items after the first, each behind a separator. -/
def writeItems (pretty : Bool) (level : Nat) : List Data → List Char
  | [] => []
  | item :: rest =>
    separator pretty level ++ write pretty level item ++ writeItems pretty level rest

/-- The entries after the first, each behind a separator. -/
def writeEntries (pretty : Bool) (level : Nat) : List (String × Data) → List Char
  | [] => []
  | (key, value) :: rest =>
    separator pretty level ++ writeText key ++ [':', ' '] ++ write pretty level value ++
      writeEntries pretty level rest

end

def render (pretty : Bool) (d : Data) : String :=
  String.ofList (write pretty 0 d)

end ClassScript.Json
