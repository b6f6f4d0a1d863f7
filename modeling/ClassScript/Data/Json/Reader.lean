import ClassScript.Data
import ClassScript.Decimal.Reading

/-!
# Reading JSON

The usual grammar, together with the words `NaN`, `Infinity` and `-Infinity`. Integers have any
size; a number with a fraction or an exponent is a float. A key that is repeated keeps its first
place and its last value.

Containers may nest so deep and no deeper. Whether there is room for one more is asked at its
opening bracket, so what stands behind the bracket is not looked at when there is none.
-/

namespace ClassScript.Json

/-- Why a text has no value. -/
inductive ReadError where
  | malformed
  /-- There is no room for a container. -/
  | tooDeep
  deriving DecidableEq

def ReadError.orMalformed {α : Type} : Option α → Except ReadError α
  | none => .error .malformed
  | some a => .ok a

/-- Reads a container, inside of which there is room for one less. -/
def opening {α : Type} (room : Nat) (read : Nat → Except ReadError α) : Except ReadError α :=
  match room with
  | 0 => .error .tooDeep
  | room + 1 => read room

def isSpace (c : Char) : Bool :=
  c == ' ' || c == '\t' || c == '\n' || c == '\r'

def skipSpace (cs : List Char) : List Char :=
  cs.dropWhile isSpace

/-- What follows a given word. -/
def after? : List Char → List Char → Option (List Char)
  | [], cs => some cs
  | _ :: _, [] => none
  | w :: word, c :: cs => if w = c then after? word cs else none

def hexValue? (c : Char) : Option Nat :=
  if '0' ≤ c ∧ c ≤ '9' then some (c.toNat - 48)
  else if 'a' ≤ c ∧ c ≤ 'f' then some (c.toNat - 87)
  else if 'A' ≤ c ∧ c ≤ 'F' then some (c.toNat - 55)
  else none

/-- Four hexadecimal digits. -/
def readUnit? : List Char → Option (Nat × List Char)
  | a :: b :: c :: d :: cs => do
    let w ← hexValue? a
    let x ← hexValue? b
    let y ← hexValue? c
    let z ← hexValue? d
    return (((w * 16 + x) * 16 + y) * 16 + z, cs)
  | _ => none

/-- The character of a `\u` escape; two escapes make one character outside the basic plane. -/
def readCodePoint? (cs : List Char) : Option (Char × List Char) := do
  let (high, rest) ← readUnit? cs
  if 0xD800 ≤ high ∧ high < 0xDC00 then
    match rest with
    | '\\' :: 'u' :: more =>
      let (low, rest') ← readUnit? more
      if 0xDC00 ≤ low ∧ low < 0xE000 then
        return (Char.ofNat (0x10000 + (high - 0xD800) * 0x400 + (low - 0xDC00)), rest')
      else none
    | _ => none
  else if 0xDC00 ≤ high ∧ high < 0xE000 then none
  else return (Char.ofNat high, rest)

/-- The character a one-letter escape stands for. -/
def unescape? : Char → Option Char
  | '"' => some '"'
  | '\\' => some '\\'
  | '/' => some '/'
  | 'b' => some (Char.ofNat 8)
  | 'f' => some (Char.ofNat 12)
  | 'n' => some '\n'
  | 'r' => some '\r'
  | 't' => some '\t'
  | _ => none

/-- A text after its opening quote; control characters have to be escaped. -/
def readText : Nat → List Char → Option (List Char × List Char)
  | 0, _ => none
  | _ + 1, [] => none
  | fuel + 1, c :: cs =>
    if c == '"' then some ([], cs)
    else if c == '\\' then
      match cs with
      | [] => none
      | 'u' :: more => do
        let (d, rest) ← readCodePoint? more
        let (text, rest') ← readText fuel rest
        return (d :: text, rest')
      | e :: more => do
        let d ← unescape? e
        let (text, rest) ← readText fuel more
        return (d :: text, rest)
    else if c.toNat < 32 then none
    else do
      let (text, rest) ← readText fuel cs
      return (c :: text, rest)

def readString? : List Char → Option (String × List Char)
  | '"' :: cs => (readText (cs.length + 1) cs).map fun (text, rest) => (String.ofList text, rest)
  | _ => none

/-- Digits of an integer: a zero stands alone. -/
def readWhole? (cs : List Char) : Option (List Char × List Char) :=
  match cs with
  | '0' :: rest => some (['0'], rest)
  | c :: _ =>
    if c.isDigit then some (cs.takeWhile Char.isDigit, cs.dropWhile Char.isDigit) else none
  | [] => none

/-- A fraction with its point, if there is one. -/
def readFraction (cs : List Char) : List Char × List Char :=
  match cs with
  | '.' :: rest =>
    let digits := rest.takeWhile Char.isDigit
    if digits.isEmpty then ([], cs) else ('.' :: digits, rest.dropWhile Char.isDigit)
  | _ => ([], cs)

/-- An exponent with its mark, if there is one. -/
def readExponent (cs : List Char) : List Char × List Char :=
  match cs with
  | e :: rest =>
    if e == 'e' || e == 'E' then
      let (sign, rest') := match rest with
        | '-' :: r => (['-'], r)
        | '+' :: r => (['+'], r)
        | _ => ([], rest)
      let digits := rest'.takeWhile Char.isDigit
      if digits.isEmpty then ([], cs)
      else (e :: (sign ++ digits), rest'.dropWhile Char.isDigit)
    else ([], cs)
  | [] => ([], cs)

def readNumber? (cs : List Char) : Option (Data × List Char) := do
  let (negative, unsigned) := match cs with
    | '-' :: rest => (true, rest)
    | _ => (false, cs)
  let (whole, rest) ← readWhole? unsigned
  let (fraction, rest') := readFraction rest
  let (exponent, rest'') := readExponent rest'
  if fraction.isEmpty && exponent.isEmpty then
    let n : Int := Decimal.digitsValue whole
    return (.int (if negative then -n else n), rest'')
  else
    let x ← Decimal.readMagnitude? (whole ++ fraction ++ exponent)
    return (.float (if negative then -x else x), rest'')

/-- The values that are words. -/
def words : List (String × Data) :=
  [("null", .null), ("true", .boolean true), ("false", .boolean false), ("NaN", .float (0 / 0)),
   ("Infinity", .float (1 / 0)), ("-Infinity", .float (-(1 / 0)))]

def readWord? (cs : List Char) : Option (Data × List Char) :=
  words.findSome? fun (word, d) => (after? word.toList cs).map fun rest => (d, rest)

mutual

/-- A value at the front of the text, with the rest, in which at most `room` containers lie inside
each other. -/
def readValue : Nat → Nat → List Char → Except ReadError (Data × List Char)
  | 0, _, _ => .error .malformed
  | fuel + 1, room, cs =>
    match cs with
    | '"' :: _ => ReadError.orMalformed <| (readString? cs).map fun (s, rest) => (.text s, rest)
    | '[' :: rest =>
      opening room fun room =>
        match skipSpace rest with
        | ']' :: rest' => return (.list [], rest')
        | rest' => do
          let (items, rest'') ← readItems fuel room rest'
          return (.list items, rest'')
    | '\x7b' :: rest =>
      opening room fun room =>
        match skipSpace rest with
        | '\x7d' :: rest' => return (.map [], rest')
        | rest' => do
          let (entries, rest'') ← readEntries fuel room rest'
          return (Data.ofPairs entries, rest'')
    | _ => ReadError.orMalformed <| (readWord? cs).or (readNumber? cs)

/-- One or more items and the closing bracket. -/
def readItems : Nat → Nat → List Char → Except ReadError (List Data × List Char)
  | 0, _, _ => .error .malformed
  | fuel + 1, room, cs => do
    let (item, rest) ← readValue fuel room cs
    match skipSpace rest with
    | ']' :: rest' => return ([item], rest')
    | ',' :: rest' => do
      let (items, rest'') ← readItems fuel room (skipSpace rest')
      return (item :: items, rest'')
    | _ => .error .malformed

/-- One or more entries and the closing brace. -/
def readEntries : Nat → Nat → List Char → Except ReadError (List (String × Data) × List Char)
  | 0, _, _ => .error .malformed
  | fuel + 1, room, cs => do
    let (key, rest) ← ReadError.orMalformed (readString? cs)
    match skipSpace rest with
    | ':' :: rest' => do
      let (value, rest'') ← readValue fuel room (skipSpace rest')
      match skipSpace rest'' with
      | '\x7d' :: rest3 => return ([(key, value)], rest3)
      | ',' :: rest3 => do
        let (entries, rest4) ← readEntries fuel room (skipSpace rest3)
        return ((key, value) :: entries, rest4)
      | _ => .error .malformed
    | _ => .error .malformed

end

/-- Reads a text that holds one value and nothing else, with room for `nesting` containers inside
each other. -/
def parse (nesting : Nat) (s : String) : Except ReadError Data := do
  let cs := skipSpace s.toList
  let (d, rest) ← readValue (2 * cs.length + 1) nesting cs
  if (skipSpace rest).isEmpty then return d else .error .malformed

end ClassScript.Json
