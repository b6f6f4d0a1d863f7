import ClassScript.Data.Yaml.Scalar

/-!
# Writing YAML in block style

Every item and every entry starts a line. The lines of an item stand two columns further in, behind
a dash on the first of them; so do the lines of a map inside a map, while those of a list inside a
map are not moved.
-/

namespace ClassScript.Yaml

def indent (line : List Char) : List Char :=
  ' ' :: ' ' :: line

/-- Puts a dash before the first line and moves the others under it. -/
def dash : List (List Char) → List (List Char)
  | [] => []
  | line :: rest => ('-' :: ' ' :: line) :: rest.map indent

mutual

/-- The lines of a value. -/
def lines : Data → List (List Char)
  | .list (item :: rest) => itemLines (item :: rest)
  | .map (entry :: rest) => entryLines (entry :: rest)
  | d => [(writeInline? d).getD []]

def itemLines : List Data → List (List Char)
  | [] => []
  | item :: rest => dash (lines item) ++ itemLines rest

def entryLines : List (String × Data) → List (List Char)
  | [] => []
  | (key, value) :: rest =>
    (match value with
      | .list (item :: items) => (writeText key ++ [':']) :: itemLines (item :: items)
      | .map (entry :: entries) =>
        (writeText key ++ [':']) :: (entryLines (entry :: entries)).map indent
      | d => [writeText key ++ [':', ' '] ++ (writeInline? d).getD []]) ++ entryLines rest

end

/-- Whether a value that stands alone needs a mark that the document ends. -/
def isOpenEnded : Data → Bool
  | .list _ | .map _ => false
  | .text s => isPlain s
  | _ => true

def render (d : Data) : String :=
  String.ofList ((lines d).flatMap (· ++ ['\n']) ++
    if isOpenEnded d then "...\n".toList else [])

end ClassScript.Yaml
