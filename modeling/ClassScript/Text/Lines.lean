import ClassScript.Text.Ranges

/-!
# Lines of a text

Three different views of a line are in use: an excerpt splits at every line boundary of Unicode, a
file is read with its carriage returns turned into line feeds, and an input stream hands out lines
that end at a line feed only.
-/

namespace ClassScript.Text

/-- The line boundaries an excerpt knows besides the pair of carriage return and line feed. -/
def lineBreakRanges : List (Nat × Nat) :=
  [(10, 13), (28, 30), (133, 133), (8232, 8233)]

def isLineBreak (c : Char) : Bool :=
  inRanges lineBreakRanges c.toNat

/-- Splits the rest of a text, `line` being the current line read backwards. -/
def splitLinesFrom (line : List Char) : List Char → List (List Char)
  | [] => if line.isEmpty then [] else [line.reverse]
  | '\r' :: '\n' :: cs => line.reverse :: splitLinesFrom [] cs
  | c :: cs =>
    if isLineBreak c then line.reverse :: splitLinesFrom [] cs else splitLinesFrom (c :: line) cs

/-- The lines of a text, without their ends; a final line end starts no further line. -/
def splitLines (s : String) : List String :=
  (splitLinesFrom [] s.toList).map String.ofList

/-- Turns each carriage return, alone or before a line feed, into a line feed. -/
def normalizeNewlines : List Char → List Char
  | [] => []
  | '\r' :: '\n' :: cs => '\n' :: normalizeNewlines cs
  | c :: cs => (if c == '\r' then '\n' else c) :: normalizeNewlines cs

/-- The next line of a stream with its line feed, and what is left; nothing at the end. -/
def nextLine? (input : List Char) : Option (List Char × List Char) :=
  match input with
  | [] => none
  | _ :: _ =>
    match input.dropWhile (· != '\n') with
    | [] => some (input, [])
    | _ :: rest => some (input.takeWhile (· != '\n') ++ ['\n'], rest)

/-- A line without the carriage returns and line feeds at its end. -/
def chompLine (line : List Char) : List Char :=
  (line.reverse.dropWhile fun c => c == '\r' || c == '\n').reverse

example : splitLines "a\r\nb\n\nc" = ["a", "b", "", "c"] := by decide +kernel
example : nextLine? "ab\nc".toList = some ("ab\n".toList, "c".toList) := by decide

end ClassScript.Text
