/-!
# Sets of code points as lists of inclusive ranges
-/

namespace ClassScript.Text

/-- The range of the table that holds `n`. -/
def rangeOf? (table : List (Nat × Nat)) (n : Nat) : Option (Nat × Nat) :=
  table.find? fun r => decide (r.1 ≤ n) && decide (n ≤ r.2)

def inRanges (table : List (Nat × Nat)) (n : Nat) : Bool :=
  table.any fun r => decide (r.1 ≤ n) && decide (n ≤ r.2)

theorem inRanges_eq_true_iff {table : List (Nat × Nat)} {n : Nat} :
    inRanges table n = true ↔ ∃ r ∈ table, r.1 ≤ n ∧ n ≤ r.2 := by
  simp [inRanges]

end ClassScript.Text
