import ClassScript.Data.Json.Writer

/-!
# YAML scalars

A word is written plainly unless it would be read as something else; then it stands between single
quotes. Only what the block style below needs is read back: quoted and plain words, the words for
booleans and null, integers, and the two empty containers.
-/

namespace ClassScript.Yaml

def nullWords : List String :=
  ["null", "Null", "NULL", "~"]

def trueWords : List String :=
  ["yes", "Yes", "YES", "true", "True", "TRUE", "on", "On", "ON"]

def falseWords : List String :=
  ["no", "No", "NO", "false", "False", "FALSE", "off", "Off", "OFF"]

def isReserved (s : String) : Bool :=
  nullWords.contains s || trueWords.contains s || falseWords.contains s

def isPlainStart (c : Char) : Bool :=
  c.isAlpha || c == '_'

def isPlainChar (c : Char) : Bool :=
  c.isAlphanum || c == '_' || c == '-' || c == '.' || c == '/'

/-- A word that reads back as itself without quotes. -/
def isPlain (s : String) : Bool :=
  match s.toList with
  | [] => false
  | c :: cs => isPlainStart c && cs.all isPlainChar && !isReserved s

/-- A quote inside quotes is written twice. -/
def quoteText (cs : List Char) : List Char :=
  '\'' :: (cs.flatMap (fun c => if c == '\'' then ['\'', '\''] else [c]) ++ ['\''])

def writeText (s : String) : List Char :=
  if isPlain s then s.toList else quoteText s.toList

/-- Numbers that are no integers; a mantissa always has a point. -/
def numbers : Decimal.Notation := ⟨".nan", ".inf", 0, true⟩

/-- A value that takes no lines of its own; none for containers with something in them. -/
def writeInline? : Data → Option (List Char)
  | .null => some "null".toList
  | .boolean b => some (if b then "true".toList else "false".toList)
  | .int n => some (Json.writeInt n)
  | .float x => some (Decimal.writeFloat numbers x).toList
  | .text s => some (writeText s)
  | .list [] => some ['[', ']']
  | .map [] => some ['\x7b', '\x7d']
  | _ => none

/-- The text of a quoted word after its opening quote, with what follows it. -/
def unquote : List Char → Option (List Char × List Char)
  | [] => none
  | '\'' :: '\'' :: cs => (unquote cs).map fun (text, rest) => ('\'' :: text, rest)
  | c :: cs =>
    if c == '\'' then some ([], cs)
    else (unquote cs).map fun (text, rest) => (c :: text, rest)

/-- An integer with an optional sign. -/
def readInt? (cs : List Char) : Option Int :=
  let digits := match cs with
    | '-' :: ds => ds
    | '+' :: ds => ds
    | _ => cs
  if digits.isEmpty || !digits.all Char.isDigit then none
  else
    let n : Int := digits.foldl (fun n c => 10 * n + (c.toNat - 48)) (0 : Nat)
    some (if cs.head? == some '-' then -n else n)

/-- What a plain word stands for. -/
def readPlain (cs : List Char) : Data :=
  let s := String.ofList cs
  if nullWords.contains s then .null
  else if trueWords.contains s then .boolean true
  else if falseWords.contains s then .boolean false
  else match readInt? cs with
    | some n => .int n
    | none => .text s

def readInline? (cs : List Char) : Option Data :=
  match cs with
  | [] => some .null
  | ['[', ']'] => some (.list [])
  | ['\x7b', '\x7d'] => some (.map [])
  | '\'' :: rest =>
    match unquote rest with
    | some (text, []) => some (.text (String.ofList text))
    | _ => none
  | _ => some (readPlain cs)

end ClassScript.Yaml
