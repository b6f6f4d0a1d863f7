import ClassScript.Text.Quoted

/-!
# Faults

A fault ends a run and is out of reach of the language's own `catch`. It has a cause, the line it
is reported at and, once it has left a call, the calls that were active there. The wording of every
fault is in `Cause.message`.
-/

namespace ClassScript

inductive Cause where
  | undefinedVariable (name : String)
  | undefinedFunction (name : String)
  | undefinedClass (name : String)
  | undefinedMember (className member : String)
  | undefinedInterface (name : String)
  | notImplemented (className interface method : String) (arity : Nat)
  | argumentCount (label : String) (expected given : Nat)
  | textOperand (text operation : String)
  | valueOperand (shown operation : String)
  | moduleNotFound (file : String)
  | circularImport (chain : List String)
  | loopControlInModule (module : String)
  | loopControlInCall (label : String)
  | loopControlAtTop
  | classExists (name : String)
  | accessOnNonObject (shown member : String)
  | assignmentOnNonObject (shown member : String)
  | notAMethod (shown : String)
  | superOutsideMethod
  | noBaseClass (className : String)
  | unknownOperator (symbol : String)
  deriving DecidableEq

namespace Cause

/-- The family a cause is reported under. -/
def kind : Cause → String
  | undefinedVariable _ => "UndefinedVariableError"
  | undefinedFunction _ => "UndefinedFunctionError"
  | undefinedClass _ => "UndefinedClassError"
  | undefinedMember _ _ => "UndefinedMemberError"
  | undefinedInterface _ => "UndefinedInterfaceError"
  | notImplemented .. => "InterfaceError"
  | argumentCount .. => "ArgumentCountError"
  | textOperand _ _ | valueOperand _ _ => "OperandTypeError"
  | moduleNotFound _ | circularImport _ | loopControlInModule _ => "ImportFault"
  | loopControlInCall _ | loopControlAtTop | classExists _ | accessOnNonObject _ _
  | assignmentOnNonObject _ _ | notAMethod _ | superOutsideMethod | noBaseClass _
  | unknownOperator _ => "RuntimeFault"

def message : Cause → String
  | undefinedVariable name => "Variable not defined: " ++ name
  | undefinedFunction name => "Function not defined: " ++ name
  | undefinedClass name => "Class not defined: " ++ name
  | undefinedMember className member => "Member not found: " ++ className ++ "." ++ member
  | undefinedInterface name => "Interface not defined: " ++ name
  | notImplemented className interface method arity =>
    "Class " ++ className ++ " does not implement " ++ interface ++ "." ++ method ++ "/" ++
      toString arity
  | argumentCount label expected given =>
    "Wrong number of arguments for " ++ label ++ ": expected " ++ toString expected ++ ", got " ++
      toString given
  | textOperand text operation =>
    "Cannot use string " ++ Text.quoted text ++ " as a number in " ++ operation
  | valueOperand shown operation => "Cannot use " ++ shown ++ " as a number in " ++ operation
  | moduleNotFound file => "Module not found: " ++ file
  | circularImport chain => "Circular import: " ++ String.intercalate " -> " chain
  | loopControlInModule module =>
    "'break' or 'continue' outside of a loop in module " ++ module
  | loopControlInCall label => "'break' or 'continue' outside of a loop in " ++ label
  | loopControlAtTop => "'break' or 'continue' outside of a loop"
  | classExists name => "Class already defined: " ++ name
  | accessOnNonObject shown member =>
    "Member access on a non-object: " ++ shown ++ "." ++ member
  | assignmentOnNonObject shown member =>
    "Member assignment on a non-object: " ++ shown ++ "." ++ member
  | notAMethod shown => "Invalid method call: " ++ shown ++ " is not a method"
  | superOutsideMethod => "'super' can only be used inside a method"
  | noBaseClass className => "Class " ++ className ++ " has no base class"
  | unknownOperator symbol => "Unknown operator: " ++ symbol

end Cause

/-- The trace lists the calls active where the fault arose, most recent first. -/
structure Fault where
  cause : Cause
  line : Option Nat
  trace : Option (List String)
  deriving DecidableEq

namespace Fault

/-- A fault that does not know its line yet. -/
def ofCause (cause : Cause) : Fault := ⟨cause, none, none⟩

/-- A fault reported at a line of its own. -/
def onLine (cause : Cause) (line : Nat) : Fault := ⟨cause, some line, none⟩

/-- Gives the fault a line unless it has one. -/
def withLine (f : Fault) (line : Nat) : Fault :=
  { f with line := f.line.or (some line) }

/-- Notes the active calls unless an inner call has done so. -/
def withTrace (f : Fault) (calls : List String) : Fault :=
  { f with trace := f.trace.or (some calls) }

end Fault

end ClassScript
