import ClassScript.Bindings
import ClassScript.Fault
import ClassScript.Syntax

/-!
# Classes

Classes are kept in the order of their definition and refer to their base by index. Indices are
never reused, so what a name means on a class never changes once it has been found out; answers are
remembered.

A field anywhere on the way from a class to its root hides every method of that name.
-/

namespace ClassScript

structure ClassDef where
  name : String
  base : Option Nat
  interfaces : List String
  members : Bindings String Member

namespace ClassDef

/-- A class with the given members; of two members with one name the later replaces the earlier. -/
def ofMembers (name : String) (base : Option Nat) (interfaces : List String)
    (members : List Member) : ClassDef :=
  ⟨name, base, interfaces, Bindings.ofList (members.map fun m => (m.name, m))⟩

def fields (c : ClassDef) : List Member :=
  c.members.values.filter Member.isField

def methods (c : ClassDef) : List Member :=
  c.members.values.filter Member.isMethod

def fieldNames (c : ClassDef) : List String :=
  c.fields.map Member.name

def methodNames (c : ClassDef) : List String :=
  c.methods.map Member.name

end ClassDef

/-- What a name means on a class: a member and the class it is declared in. -/
inductive Resolution where
  | notFound
  | found (owner : Nat) (member : Member)

namespace Resolution

def isField : Resolution → Bool
  | notFound => false
  | found _ m => m.isField

def isMethod : Resolution → Bool
  | notFound => false
  | found _ m => m.isMethod

def ofOption : Option (Nat × Member) → Resolution
  | none => notFound
  | some (owner, m) => found owner m

end Resolution

structure ClassTable where
  classes : Array ClassDef
  /-- The index of every class, by its name. -/
  indices : Bindings String Nat
  /-- Answers of `resolve?` so far. -/
  known : Bindings (Nat × String) Resolution

namespace ClassTable

def empty : ClassTable := ⟨#[], {}, {}⟩

instance : Inhabited ClassTable := ⟨empty⟩

def size (t : ClassTable) : Nat :=
  t.classes.size

/-- The index of the class with the given name. -/
def index? (t : ClassTable) (name : String) : Option Nat :=
  t.indices.get? name

def contains (t : ClassTable) (name : String) : Bool :=
  (t.index? name).isSome

def get? (t : ClassTable) (name : String) : Option ClassDef :=
  (t.index? name).bind fun i => t.classes[i]?

/-- Appends a class whose name is new and answers its index. -/
def define (t : ClassTable) (c : ClassDef) : Except Cause (Nat × ClassTable) :=
  if t.contains c.name then .error (.classExists c.name)
  else .ok (t.size, { t with
    classes := t.classes.push c
    indices := t.indices.insert c.name t.size })

/-- The index of a class that has to exist. -/
def lookup (t : ClassTable) (name : String) : Except Cause Nat :=
  match t.index? name with
  | some i => .ok i
  | none => .error (.undefinedClass name)

/-- Follows base links from `i` for at most `fuel` classes. -/
def chainFrom (t : ClassTable) : Nat → Nat → Option (List Nat)
  | 0, _ => none
  | fuel + 1, i =>
    match t.classes[i]? with
    | none => none
    | some c =>
      match c.base with
      | none => some [i]
      | some base => (chainFrom t fuel base).map (i :: ·)

/-- The indices from `i` to its root, most derived first; none when the way leaves the table. -/
def chain? (t : ClassTable) (i : Nat) : Option (List Nat) :=
  t.chainFrom t.size i

/-- The member of that name declared in class `i` itself. -/
def member? (t : ClassTable) (i : Nat) (name : String) : Option Member :=
  t.classes[i]?.bind fun c => c.members.get? name

/-- The nearest member of the given sort on a chain. -/
def nearest? (t : ClassTable) (sort : Member → Bool) (name : String) (chain : List Nat) :
    Option (Nat × Member) :=
  chain.findSome? fun i => ((t.member? i name).filter sort).map fun m => (i, m)

/-- What `name` means on a class with the given chain, without remembering. -/
def resolveOn (t : ClassTable) (chain : List Nat) (name : String) : Resolution :=
  .ofOption ((t.nearest? Member.isField name chain).or (t.nearest? Member.isMethod name chain))

/-- The search behind `resolve?`. -/
def search? (t : ClassTable) (i : Nat) (name : String) : Option Resolution :=
  (t.chain? i).map fun chain => t.resolveOn chain name

/-- What `name` means on class `i`, and the table that remembers it; none for an index that leads
out of the table. -/
def resolve? (t : ClassTable) (i : Nat) (name : String) : Option (Resolution × ClassTable) :=
  match t.known.get? (i, name) with
  | some r => some (r, t)
  | none =>
    (t.search? i name).map fun r => (r, { t with known := t.known.insert (i, name) r })

/-- The nearest method of that name, fields being ignored. -/
def findMethod? (t : ClassTable) (i : Option Nat) (name : String) : Option Resolution :=
  match i with
  | none => some .notFound
  | some i => (t.chain? i).map fun chain => .ofOption (t.nearest? Member.isMethod name chain)

end ClassTable

end ClassScript
