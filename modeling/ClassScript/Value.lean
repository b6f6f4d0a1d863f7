/-!
# Values

Objects, lists and bound methods have an identity. What never changes about an object, its class,
travels with every reference to it; its fields live in the heap.
-/

namespace ClassScript

/-- A reference to an object. -/
structure Instance where
  id : Nat
  classIndex : Nat
  className : String
  deriving DecidableEq, Inhabited

inductive Value where
  | null
  | boolean (value : Bool)
  | number (value : Float)
  | text (value : String)
  | list (id : Nat) (items : List Value)
  | object (self : Instance)
  /-- A method read from an object, ready to be called on it. -/
  | method (id : Nat) (receiver : Instance) (name : String)
  /-- A class as a whole; scripts cannot make one. -/
  | definition (name : String)
  deriving Inhabited

namespace Value

/-- Everything is true but `false`, `null` and zero. -/
def isTruthy : Value → Bool
  | null => false
  | boolean b => b
  | number x => x != 0
  | _ => true

/-- What `typeof` answers. -/
def typeTag : Value → String
  | null => "null"
  | boolean _ => "boolean"
  | number _ => "number"
  | text _ => "string"
  | list _ _ => "list"
  | object self => self.className
  | method _ _ _ => "method"
  | definition _ => "ClassDefinition"

/-- Whether the value is compared by identity. -/
def isReference : Value → Bool
  | list _ _ | object _ | method _ _ _ => true
  | _ => false

/-- Whether two values are one and the same list, object or bound method. -/
def isSameReference : Value → Value → Bool
  | list i _, list j _ => i == j
  | object a, object b => a.id == b.id
  | method i _ _, method j _ _ => i == j
  | _, _ => false

def isNull : Value → Bool
  | null => true
  | _ => false

end Value

end ClassScript
