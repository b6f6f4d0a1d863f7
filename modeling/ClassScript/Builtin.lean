import ClassScript.Run
import ClassScript.Value.Number

/-!
# Built-in functions

They cannot be redefined. A failure in one of them takes its line from the running statement.
-/

namespace ClassScript

inductive Builtin where
  | print
  | input
  | sqrt
  | abs
  | typeof
  | getMethods
  | getFields
  deriving DecidableEq

namespace Builtin

def ofName? : String → Option Builtin
  | "print" => some print
  | "input" => some input
  | "sqrt" => some sqrt
  | "abs" => some abs
  | "typeof" => some typeof
  | "getMethods" => some getMethods
  | "getFields" => some getFields
  | _ => none

/-- The class a built-in is asked about. -/
def classNamed (v : Value) : Run ClassDef := do
  match (← get).classes.get? v.toText with
  | some c => return c
  | none => Run.stop (.fault (.ofCause (.undefinedClass v.toText)))

/-- A new list of texts. -/
def textList (texts : List String) : Run Value := do
  return .list (← Run.freshId) (texts.map .text)

/-- Every built-in takes one argument. -/
def apply (b : Builtin) (v : Value) : Run Value :=
  match b with
  | print => do
    Run.write (v.toText ++ "\n")
    return .null
  | input => do
    Run.write v.toText
    match ← Run.readLine with
    | none => return .null
    | some line => return .text line
  | sqrt => do
    let x ← Run.ofExcept (v.toNumber "sqrt")
    return .number x.sqrt
  | abs => do
    let x ← Run.ofExcept (v.toNumber "abs")
    return .number x.abs
  | typeof => return .text v.typeTag
  | getMethods => do textList (← classNamed v).methodNames
  | getFields => do textList (← classNamed v).fieldNames

/-- Calls a built-in by its name with evaluated arguments. -/
def call (b : Builtin) (name : String) (args : List Value) (line : Nat) : Run Value :=
  match args with
  | [v] => b.apply v
  | _ => Run.faultAt (.argumentCount name 1 args.length) line

end Builtin

end ClassScript
