import ClassScript.Text.Lines

/-!
# Excerpts of a source

The lines around a place, numbered, with a mark at the line in question and a caret below its
column. Lines are split at every line boundary of Unicode.
-/

namespace ClassScript

/-- Right-aligns a number. -/
def padNumber (width n : Nat) : String :=
  let digits := toString n
  String.ofList (List.replicate (width - digits.length) ' ') ++ digits

/-- One line of an excerpt; the marked one is followed by the caret. -/
def excerptRow (width : Nat) (line : Int) (column : Option Int) (number : Nat) (text : String) :
    List String :=
  let mark := if (number : Int) = line then "> " else "  "
  let row := mark ++ padNumber width number ++ " | " ++ text
  match column with
  | some c =>
    if (number : Int) = line then
      [row, "  " ++ String.ofList (List.replicate width ' ') ++ " | " ++
        String.ofList (List.replicate (c - 1).toNat ' ') ++ "^"]
    else [row]
  | none => [row]

/-- The lines at a distance of at most `radius` from `line`; empty when there is no such line. -/
def excerpt (source : String) (line : Int) (column : Option Int) (radius : Int) : String :=
  let lines := Text.splitLines source
  if line < 1 ∨ lines.length < line then ""
  else
    let last := min (lines.length : Int) (line + radius)
    let width := (toString last).length
    let rows := (lines.zipIdx 1).filter fun (_, number) =>
      decide (line - radius ≤ number) && decide ((number : Int) ≤ last)
    String.intercalate "\n"
      (rows.flatMap fun (text, number) => excerptRow width line column number text)

/-- How many lines an error message shows on either side. -/
def messageRadius : Int := 2

end ClassScript
