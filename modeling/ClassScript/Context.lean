import ClassScript.ClassTable
import ClassScript.Files
import ClassScript.Value

/-!
# State of a run

`Environment` holds what a run cannot change, `Context` what it can. The part of the context that a
call, an instantiation or an import changes for its duration is the `Frame`. Scope, object and owner
are saved on the way in and put back on the way out; the stacks are pushed on the way in and popped
on the way out.
-/

namespace ClassScript

abbrev Scope := Bindings String Value

/-- A module on the way in, by name and by the file it was found in. -/
structure ModuleRef where
  name : String
  path : List String
  deriving DecidableEq

structure Frame where
  /-- The local variables of the running call; none at the top level. -/
  scope : Option Scope
  /-- The object whose code is running. -/
  self : Option Instance
  /-- The class that owns the running code; `super` starts from its base. -/
  owner : Option Nat
  /-- Labels of the active calls, most recent first. -/
  calls : List String
  /-- Modules being imported, most recent first. -/
  imports : List ModuleRef
  /-- How many calls and instantiations lie inside each other. -/
  depth : Nat

namespace Frame

/-- Outside of every call. -/
def top : Frame := ⟨none, none, none, [], [], 0⟩

/-- The frame with scope, object and owner as they have been saved, the stacks as they are. -/
def resuming (f saved : Frame) : Frame :=
  { f with scope := saved.scope, self := saved.self, owner := saved.owner }

instance : Inhabited Frame := ⟨top⟩

end Frame

structure Function where
  params : List String
  body : Block
  deriving Inhabited

structure Context where
  frame : Frame
  globals : Scope
  functions : Bindings String Function
  interfaces : Bindings String (List Signature)
  classes : ClassTable
  /-- The fields of every object, by its id. -/
  heap : Array Scope
  /-- The identity of the next list or bound method. -/
  nextId : Nat
  /-- What is left of the standard input. -/
  input : List Char
  /-- What has been written. -/
  output : String
  /-- Lines of the debug log, latest first. -/
  log : List String

namespace Context

/-- Before anything has run. -/
def initial (input : String) : Context :=
  { frame := .top, globals := {}, functions := {}, interfaces := {}, classes := .empty,
    heap := #[], nextId := 0, input := input.toList, output := "", log := [] }

/-- The fields of an object. -/
def fieldsOf (c : Context) (self : Instance) : Scope :=
  c.heap[self.id]?.getD {}

end Context

/-- What stays the same during a run. -/
structure Environment where
  files : Files
  /-- Where imports are looked up; none when that is outside of what can be seen. -/
  directory : Option (List String)
  /-- How many calls and instantiations may lie inside each other. -/
  callDepth : Nat
  /-- How deep the syntax of an imported module may nest. -/
  syntaxDepth : Nat
  /-- Whether the run writes a debug log. -/
  debug : Bool

end ClassScript
