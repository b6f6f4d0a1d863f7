import ClassScript.Eval

/-!
# How operations fail

A `break` or `continue` that leaves its loop is noticed where a call, a module or a source ends. No
operation on values or classes fails for that reason.
-/

namespace ClassScript

/-- The causes of a fault for a `break` or `continue` outside of a loop. -/
def Cause.isLoopControl : Cause → Bool
  | .loopControlInModule _ | .loopControlInCall _ | .loopControlAtTop => true
  | _ => false

/-- The operation does not fail for loop control. -/
def Ordinary {α : Type} (r : Except Cause α) : Prop :=
  ∀ cause, r = .error cause → cause.isLoopControl = false

namespace Ordinary

variable {α β : Type}

theorem ok (a : α) : Ordinary (.ok a) := by
  rintro cause ⟨⟩

theorem error {cause : Cause} (h : cause.isLoopControl = false) :
    Ordinary (.error cause : Except Cause α) := by
  rintro _ ⟨⟩
  exact h

theorem bind {r : Except Cause α} {f : α → Except Cause β} (hr : Ordinary r)
    (hf : ∀ a, Ordinary (f a)) : Ordinary (r >>= f) := by
  cases r with
  | ok a => exact hf a
  | error cause => exact error (hr cause rfl)

theorem toNumber (operation : String) (v : Value) : Ordinary (v.toNumber operation) := by
  unfold Value.toNumber
  split
  · exact ok _
  · exact ok _
  · exact ok _
  · split
    · exact ok _
    · exact error rfl
  · exact error rfl

theorem equals (a b : Value) : Ordinary (a.equals b) := by
  unfold Value.equals
  split
  · exact ok _
  · split
    · exact ok _
    · split
      · exact ok _
      · exact (toNumber _ a).bind fun _ => (toNumber _ b).bind fun _ => ok _

theorem binary (op : BinaryOp) (a b : Value) : Ordinary (op.apply a b) := by
  have onNumbers (x y : Float) : Ordinary (op.onNumbers x y) := by
    cases op
    case and => exact error rfl
    case or => exact error rfl
    all_goals exact ok _
  have arithmetic : Ordinary (if op = .add ∧ (a.isText || b.isText) = true then
      (.ok (.text (a.toText ++ b.toText)) : Except Cause Value)
      else numericOperands op.symbol a b >>= fun p => op.onNumbers p.1 p.2) := by
    split
    · exact ok _
    · refine bind ?_ fun p => onNumbers p.1 p.2
      exact (toNumber _ a).bind fun _ => (toNumber _ b).bind fun _ => ok _
  cases op
  case eq => exact (equals a b).bind fun _ => ok _
  case ne => exact (equals a b).bind fun _ => ok _
  all_goals exact arithmetic

theorem unary (op : UnaryOp) (v : Value) : Ordinary (op.apply v) := by
  cases op with
  | minus => exact (toNumber _ v).bind fun _ => ok _
  | plus => exact (toNumber _ v).bind fun _ => ok _
  | not => exact ok _

theorem lookup (t : ClassTable) (name : String) : Ordinary (t.lookup name) := by
  unfold ClassTable.lookup
  split
  · exact ok _
  · exact error rfl

theorem define (t : ClassTable) (d : ClassDef) : Ordinary (t.define d) := by
  unfold ClassTable.define
  split
  · exact error rfl
  · exact ok _

end Ordinary

/-- The call that a fault of this cause arises in when its body has ended. -/
def Cause.leftCall? : Cause → Option String
  | .loopControlInCall label => some label
  | _ => none

theorem Cause.leftCall?_eq_none {cause : Cause} (h : cause.isLoopControl = false) :
    cause.leftCall? = none := by
  cases cause with
  | loopControlInCall label => cases h
  | _ => rfl

end ClassScript
