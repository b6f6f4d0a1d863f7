import ClassScript.Eval.Call

/-!
# Class declarations and new objects

A class is defined only when every method of its interfaces is found on it. Field initializers run
from the root class down, so those of a derived class overwrite inherited ones.
-/

namespace ClassScript

/-- The method that a signature would find on a class about to be defined, given what its base
answers: by the rule of dispatch a field on either hides every method. -/
def implementation? (own : Option Member) (inherited : Resolution) : Option Member :=
  match own, inherited with
  | some (.field ..), _ => none
  | _, .found _ (.field ..) => none
  | some m, _ => some m
  | none, .found _ m => some m
  | none, .notFound => none

def Member.arity : Member → Nat
  | .field .. => 0
  | .method _ _ params _ _ _ _ => params.length

/-- What the base of a class about to be defined answers. -/
def inherited (c : ClassDef) (name : String) : Run Resolution :=
  match c.base with
  | none => return .notFound
  | some base => Run.resolve base name

/-- Refuses a class on which a signature finds no method of its arity. -/
def requireMethod (c : ClassDef) (interface : String) (line : Nat) (s : Signature)
    (found : Option Member) : Run Unit :=
  Run.refuseIf (found.all fun m => m.arity != s.params.length)
    (.notImplemented c.name interface s.name s.params.length) line

def checkSignature (c : ClassDef) (interface : String) (line : Nat) (s : Signature) : Run Unit := do
  let r ← inherited c s.name
  requireMethod c interface line s (implementation? (c.members.get? s.name) r)

def checkInterface (c : ClassDef) (line : Nat) (interface : String) : Run Unit := do
  match (← get).interfaces.get? interface with
  | none => Run.faultAt (.undefinedInterface interface) line
  | some signatures => signatures.forM (checkSignature c interface line)

/-- The index of the base that a declaration names. -/
def baseIndex (base : Option String) (line : Nat) : Run (Option Nat) := do
  match base with
  | none => return none
  | some b => return some (← Run.ofExceptAt line ((← get).classes.lookup b))

/-- Appends a class that has passed its checks. -/
def registerClass (env : Environment) (c : ClassDef) (line : Nat) : Run Unit := do
  let (index, classes) ← Run.ofExceptAt line ((← get).classes.define c)
  modify fun ctx => { ctx with classes }
  Run.debug env fun _ =>
    "Defined class '" ++ c.name ++ "' at index " ++ toString index ++ " (base=" ++
      (c.base.map toString).getD "None" ++ ")"

/-- Defines a class, or leaves the classes as they are. -/
def declareClass (env : Environment) (name : String) (base : Option String)
    (interfaces : List String) (members : List Member) (line : Nat) : Run Unit := do
  Run.refuseIf ((← get).classes.contains name) (.classExists name) line
  let base ← baseIndex base line
  let c := ClassDef.ofMembers name base interfaces members
  interfaces.forM (checkInterface c line)
  registerClass env c line

/-- Gives an object its fields as one class declares them. -/
def initializeFields (k : Evaluators) (self : Instance) : List Member → Run Unit
  | [] => pure ()
  | .field name _ initializer _ :: rest => do
    let value ← match initializer with
      | none => pure Value.null
      | some e => k.eval e
    Run.writeField self name value
    initializeFields k self rest
  | .method .. :: rest => initializeFields k self rest

/-- Gives an object the fields of the listed classes, each class's own code running as its owner. -/
def initializeClasses (k : Evaluators) (self : Instance) : List Nat → Run Unit
  | [] => pure ()
  | i :: rest => do
    modify fun c => { c with frame := { c.frame with owner := some i } }
    let c ← Run.classAt i
    initializeFields k self c.members.values
    initializeClasses k self rest

/-- The frame in which the fields of a new object are initialized. -/
def Frame.initializing (frame : Frame) (self : Instance) : Frame :=
  { frame with
    scope := some (Bindings.empty.insert "this" (.object self))
    self := some self
    owner := some self.classIndex
    depth := frame.depth + 1 }

/-- The way out of the initializers. -/
def Frame.leavingObject (frame : Frame) : Frame :=
  { frame with depth := frame.depth - 1 }

/-- Makes an object of a class and initializes its fields. -/
def instantiate (env : Environment) (k : Evaluators) (className : String) (line : Nat) :
    Run Value := do
  let index ← Run.ofExceptAt line ((← get).classes.lookup className)
  checkDepth env
  let c ← Run.classAt index
  let self ← Run.allocate index c.name
  Run.debug env fun _ => "Creating new object of class '" ++ c.name ++ "'"
  let indices ← Run.chain index
  Run.inFrame (fun frame => frame.initializing self) Frame.leavingObject <|
    initializeClasses k self indices.reverse
  return .object self

end ClassScript
