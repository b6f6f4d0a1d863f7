import ClassScript.Decimal.Notation
import ClassScript.Text.Literal
import ClassScript.Value

/-!
# The text of a value

What `print` writes and `+` joins. A text stands for itself at the top and as a literal inside a
list. A whole number below 10^15 has no fraction.
-/

namespace ClassScript

namespace Value

/-- Numbers in the language's own form. -/
def numbers : Decimal.Notation := ⟨"NaN", "Infinity", Decimal.tenPow 15, false⟩

mutual

def nestedText : Value → String
  | null => "null"
  | boolean b => if b then "true" else "false"
  | number x => Decimal.writeFloat numbers x
  | text s => Text.literal s
  | list _ items => "[" ++ itemsText items ++ "]"
  | object self => "<" ++ self.className ++ " object>"
  | method _ receiver name => "<method " ++ receiver.className ++ "." ++ name ++ ">"
  | definition name => "<class " ++ name ++ ">"

/-- The items with commas between them. -/
def itemsText : List Value → String
  | [] => ""
  | [v] => nestedText v
  | v :: rest => nestedText v ++ ", " ++ itemsText rest

end

def toText : Value → String
  | text s => s
  | v => nestedText v

end Value

end ClassScript
