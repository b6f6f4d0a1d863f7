import ClassScript.Bindings

/-!
# Plain data

Trees of the values that the data formats know. The keys of a map keep their order.
-/

namespace ClassScript

inductive Data where
  | null
  | boolean (value : Bool)
  | int (value : Int)
  | float (value : Float)
  | text (value : String)
  | list (items : List Data)
  | map (entries : List (String × Data))
  deriving BEq, Inhabited

namespace Data

/-- A map from pairs in which a key may be repeated: its first place and its last value count. -/
def ofPairs (pairs : List (String × Data)) : Data :=
  .map (Bindings.ofList pairs).entries

mutual

/-- How many containers lie inside each other, an empty one counted too. -/
def depth : Data → Nat
  | .list items => depthOfItems items + 1
  | .map entries => depthOfEntries entries + 1
  | .null | .boolean _ | .int _ | .float _ | .text _ => 0

def depthOfItems : List Data → Nat
  | [] => 0
  | item :: rest => max item.depth (depthOfItems rest)

def depthOfEntries : List (String × Data) → Nat
  | [] => 0
  | (_, value) :: rest => max value.depth (depthOfEntries rest)

end

end Data

end ClassScript
