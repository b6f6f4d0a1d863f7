import ClassScript.Data.Yaml.Scalar

/-!
# Reading YAML in block style

The lines of an item are those up to the next dash in the same column, the lines of an entry those
up to the next key in the same column.
-/

namespace ClassScript.Yaml

/-- Splits a text at its line feeds, `line` being the current line read backwards. -/
def splitAtFeeds (line : List Char) : List Char → List (List Char)
  | [] => if line.isEmpty then [] else [line.reverse]
  | c :: cs => if c == '\n' then line.reverse :: splitAtFeeds [] cs else splitAtFeeds (c :: line) cs

def isIndented : List Char → Bool
  | ' ' :: ' ' :: _ => true
  | _ => false

def isDashed : List Char → Bool
  | '-' :: ' ' :: _ => true
  | _ => false

/-- Splits a line into its key and what follows the colon. -/
def splitKey? (line : List Char) : Option (String × List Char) :=
  match line with
  | '\'' :: rest =>
    match unquote rest with
    | some (key, ':' :: ' ' :: value) => some (String.ofList key, value)
    | some (key, [':']) => some (String.ofList key, [])
    | _ => none
  | _ =>
    match line.dropWhile (· != ':') with
    | ':' :: ' ' :: value => some (String.ofList (line.takeWhile (· != ':')), value)
    | [':'] => some (String.ofList (line.takeWhile (· != ':')), [])
    | _ => none

mutual

/-- Reads the lines of one value. -/
def readLines : Nat → List (List Char) → Option Data
  | 0, _ => none
  | fuel + 1, ls =>
    match ls with
    | [] => some .null
    | line :: rest =>
      if isDashed line then (readItems fuel ls).map .list
      else if (splitKey? line).isSome then (readEntries fuel ls).map Data.ofPairs
      else if rest.isEmpty then readInline? line
      else none

def readItems : Nat → List (List Char) → Option (List Data)
  | 0, _ => none
  | fuel + 1, ls =>
    match ls with
    | [] => some []
    | line :: rest =>
      if isDashed line then do
        let own := rest.takeWhile isIndented
        let item ← readLines fuel ((line :: own).map (List.drop 2))
        let items ← readItems fuel (rest.dropWhile isIndented)
        return item :: items
      else none

def readEntries : Nat → List (List Char) → Option (List (String × Data))
  | 0, _ => none
  | fuel + 1, ls =>
    match ls with
    | [] => some []
    | line :: rest => do
      let (key, inline) ← splitKey? line
      let belongs := fun l => isIndented l || isDashed l
      let own := rest.takeWhile belongs
      let value ←
        if own.isEmpty then readInline? inline
        else if !inline.isEmpty then none
        else if own.all isIndented then readLines fuel (own.map (List.drop 2))
        else readLines fuel own
      let entries ← readEntries fuel (rest.dropWhile belongs)
      return (key, value) :: entries

end

/-- Reads a document; the mark of its end is dropped. -/
def parse? (s : String) : Option Data :=
  let ls := (splitAtFeeds [] s.toList).filter fun l => l != "...".toList
  readLines (s.length + 2) ls

end ClassScript.Yaml
