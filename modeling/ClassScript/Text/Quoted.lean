import ClassScript.Text.Unprintable

/-!
# Quoted texts in messages

Messages show a text between single quotes, or between double quotes when it holds a single quote
and no double quote. The backslash, the quote in use and characters without a printed form are
escaped, the latter by their code point in two, four or eight lower-case hexadecimal digits.
-/

namespace ClassScript.Text

def hexDigit (n : Nat) : Char :=
  if n < 10 then Char.ofNat (48 + n) else Char.ofNat (87 + n)

/-- The lowest `width` hexadecimal digits of `n`, most significant first. -/
def hexDigits (width n : Nat) : List Char :=
  (List.range width).reverse.map fun i => hexDigit (n / Nat.pow 16 i % 16)

/-- The escape of a character by its code point, in the shortest of the three forms. -/
def escapeCode (c : Char) : List Char :=
  if c.toNat < 0x100 then '\\' :: 'x' :: hexDigits 2 c.toNat
  else if c.toNat < 0x10000 then '\\' :: 'u' :: hexDigits 4 c.toNat
  else '\\' :: 'U' :: hexDigits 8 c.toNat

/-- One character inside quotes of the kind `quote`. -/
def quoteChar (quote c : Char) : List Char :=
  if c == quote || c == '\\' then ['\\', c]
  else if c == '\n' then ['\\', 'n']
  else if c == '\r' then ['\\', 'r']
  else if c == '\t' then ['\\', 't']
  else if isPrintable c then [c]
  else escapeCode c

/-- Double quotes only where they save an escape. -/
def chooseQuote (cs : List Char) : Char :=
  if cs.contains '\'' && !cs.contains '"' then '"' else '\''

/-- The text as messages show it. -/
def quoted (s : String) : String :=
  let quote := chooseQuote s.toList
  String.ofList (quote :: (s.toList.flatMap (quoteChar quote) ++ [quote]))

example : quoted "it's" = "\"it's\"" := by decide +kernel
example : quoted "a\n\\" = "'a\\n\\\\'" := by decide +kernel

end ClassScript.Text
