import ClassScript.Operator

/-!
# Equality is symmetric

Equality looks at its operands in an order that treats left and right differently: texts, then
references, then `null`, then the left operand as a number and the right one. The order does not
show. Two values are equal whichever comes first, and where they cannot be compared the fault is the
same. That is so because at most one of them can be at fault: a text that spells no number, beside a
boolean or a number.

For doubles this is symmetry of IEEE equality, by which a NaN differs from itself.
-/

namespace ClassScript

section Doubles

open Float.Model (UnpackedFloat)

/-- The order of the magnitudes of two finite doubles. -/
theorem magnitudes_swap (m m' : Nat) (e e' : Int) :
    ((compare e e').then (compare m m')).swap = (compare e' e).then (compare m' m) := by
  rw [Ordering.swap_then, Int.compare_swap, Nat.compare_swap]

/-- To compare the other way round turns the answer round. -/
theorem compare_unpacked_swap (x y : UnpackedFloat) :
    (x.compare y).map Ordering.swap = y.compare x := by
  rcases x with (_ | _) | _ | _ | ⟨_ | _, m, e, _⟩ <;>
    rcases y with (_ | _) | _ | _ | ⟨_ | _, m', e', _⟩
  -- two finite doubles of one sign are left; of all others the shape decides
  case finite.positive.finite.positive => exact congrArg some (magnitudes_swap m m' e e')
  case finite.negative.finite.negative =>
    exact congrArg (fun order => some order.swap) (magnitudes_swap m m' e e')
  all_goals rfl

theorem float_beq_comm (x y : Float) : (x == y) = (y == x) := by
  change (x.toModel.unpack.compare y.toModel.unpack == some .eq) =
    (y.toModel.unpack.compare x.toModel.unpack == some .eq)
  rw [← compare_unpacked_swap x.toModel.unpack]
  rcases x.toModel.unpack.compare y.toModel.unpack with _ | _ | _ | _ <;> rfl

end Doubles

namespace Value

/-- Values that a script can hold: all but classes as a whole. -/
def isRuntime : Value → Bool
  | definition _ => false
  | _ => true

/-- Booleans and numbers. -/
def isNumeric : Value → Bool
  | boolean _ | number _ => true
  | _ => false

/-- The value is this text, which spells no number. -/
def IsWord (v : Value) (s : String) : Prop :=
  v = .text s ∧ Decimal.readFloat? s = none

theorem isSameReference_comm (a b : Value) : a.isSameReference b = b.isSameReference a := by
  cases a <;> cases b <;> simp only [isSameReference, Bool.beq_comm]

/-- Both as numbers, the left one first. -/
def equalNumbers (a b : Value) : Except Cause Bool := do
  let x ← a.toNumber "=="
  let y ← b.toNumber "=="
  return x == y

/-- Unless both operands are texts, references and `null` decide before numbers do. -/
theorem equals_of_not_texts {a b : Value} (h : (a.isText && b.isText) = false) :
    a.equals b =
      if a.isReference || b.isReference then .ok (a.isSameReference b)
      else if a.isNull || b.isNull then .ok (a.isNull && b.isNull)
      else a.equalNumbers b := by
  unfold equals
  split
  · cases h
  · rfl

theorem isNumeric_spec {v : Value} (h : v.isNumeric = true) :
    v.isText = false ∧ v.isReference = false ∧ v.isNull = false := by
  cases v with
  | boolean b => exact ⟨rfl, rfl, rfl⟩
  | number x => exact ⟨rfl, rfl, rfl⟩
  | _ => cases h

/-- One operand is a text that spells no number, and the other a boolean or a number. -/
def Mismatched (a b : Value) (s : String) : Prop :=
  a.IsWord s ∧ b.isNumeric = true ∨ b.IsWord s ∧ a.isNumeric = true

theorem Mismatched.symm {a b : Value} {s : String} (h : a.Mismatched b s) : b.Mismatched a s :=
  Or.symm h

/-- Only one of the operands is a word. -/
theorem Mismatched.unique {a b : Value} {s t : String} (hs : a.Mismatched b s)
    (ht : a.Mismatched b t) : s = t := by
  rcases hs with ⟨⟨rfl, _⟩, hb⟩ | ⟨⟨rfl, _⟩, ha⟩ <;>
    rcases ht with ⟨⟨h, _⟩, hb'⟩ | ⟨⟨h, _⟩, ha'⟩
  · exact Value.text.inj h
  · cases ha'
  · cases hb'
  · exact Value.text.inj h

/-- Nothing that is looked at before numbers are decides on mismatched operands. -/
theorem Mismatched.spec {a b : Value} {s : String} (h : a.Mismatched b s) :
    (a.isText && b.isText) = false ∧ (a.isReference || b.isReference) = false ∧
      (a.isNull || b.isNull) = false := by
  rcases h with ⟨⟨rfl, _⟩, hb⟩ | ⟨⟨rfl, _⟩, ha⟩
  · obtain ⟨text, reference, null⟩ := isNumeric_spec hb
    rw [text, reference, null]
    exact ⟨rfl, rfl, rfl⟩
  · obtain ⟨text, reference, null⟩ := isNumeric_spec ha
    rw [text, reference, null]
    exact ⟨rfl, rfl, rfl⟩

/-- What is neither a reference nor `null` is a number, or a text that is one or is at fault. -/
theorem toNumber_cases {v : Value} (runtime : v.isRuntime = true)
    (reference : v.isReference = false) (null : v.isNull = false) :
    (∃ x, v.toNumber "==" = .ok x ∧ ∀ s, ¬ v.IsWord s) ∨
    ∃ s, v.IsWord s ∧ v.toNumber "==" = .error (.textOperand s "==") := by
  cases v with
  | boolean b => exact Or.inl ⟨_, rfl, fun s h => nomatch h.1⟩
  | number x => exact Or.inl ⟨x, rfl, fun s h => nomatch h.1⟩
  | text s =>
    cases hs : Decimal.readFloat? s with
    | some x =>
      refine Or.inl ⟨x, by rw [toNumber, hs], ?_⟩
      rintro _ ⟨⟨⟩, word⟩
      rw [hs] at word
      cases word
    | none => exact Or.inr ⟨s, ⟨rfl, hs⟩, by rw [toNumber, hs]⟩
  | null => cases null
  | list id items => cases reference
  | object self => cases reference
  | method id receiver name => cases reference
  | definition name => cases runtime

/-- What is compared as a number and is no text is a boolean or a number. -/
theorem isNumeric_of_not_text {v : Value} (runtime : v.isRuntime = true)
    (reference : v.isReference = false) (null : v.isNull = false) (text : v.isText = false) :
    v.isNumeric = true := by
  cases v with
  | boolean b => rfl
  | number x => rfl
  | text s => cases text
  | null => cases null
  | list id items => cases reference
  | object self => cases reference
  | method id receiver name => cases reference
  | definition name => cases runtime

/-- Two operands have the one answer in either order, or are mismatched and at the one fault. -/
def Settled (a b : Value) : Prop :=
  (∃ r, a.equals b = .ok r ∧ b.equals a = .ok r ∧ ∀ s, ¬ a.Mismatched b s) ∨
  ∃ s, a.Mismatched b s ∧
    a.equals b = .error (.textOperand s "==") ∧ b.equals a = .error (.textOperand s "==")

theorem Settled.symm {a b : Value} (h : a.Settled b) : b.Settled a := by
  rcases h with ⟨r, hab, hba, matched⟩ | ⟨s, mismatched, hab, hba⟩
  · exact Or.inl ⟨r, hba, hab, fun s h => matched s h.symm⟩
  · exact Or.inr ⟨s, mismatched.symm, hba, hab⟩

theorem settled_of_texts {a b : Value} (h : (a.isText && b.isText) = true) : a.Settled b := by
  have matched : ∀ s, ¬ a.Mismatched b s := by
    intro s mismatched
    rw [mismatched.spec.1] at h
    cases h
  cases a with
  | text s =>
    cases b with
    | text t =>
      refine Or.inl ⟨s == t, rfl, ?_, matched⟩
      rw [Bool.beq_comm]
      rfl
    | _ => cases h
  | _ => cases h

/-- As numbers, a word beside anything but a text is the only one of the two that can fail. -/
theorem settled_of_word {a b : Value} {s : String} (word : a.IsWord s) (hb : b.isNumeric = true)
    (hab : a.equals b = a.equalNumbers b) (hba : b.equals a = b.equalNumbers a) :
    a.Settled b := by
  obtain ⟨rfl, hs⟩ := word
  refine Or.inr ⟨s, Or.inl ⟨⟨rfl, hs⟩, hb⟩, ?_, ?_⟩
  · rw [hab, equalNumbers, toNumber, hs]
    rfl
  · rw [hba, equalNumbers]
    cases b with
    | boolean c => rw [toNumber, toNumber, hs]; rfl
    | number x => rw [toNumber, toNumber, hs]; rfl
    | _ => cases hb

theorem settled {a b : Value} (ha : a.isRuntime = true) (hb : b.isRuntime = true) :
    a.Settled b := by
  by_cases texts : (a.isText && b.isText) = true
  · exact settled_of_texts texts
  rw [Bool.not_eq_true] at texts
  have hab := equals_of_not_texts texts
  have hba := equals_of_not_texts (Bool.and_comm a.isText b.isText ▸ texts)
  rw [isSameReference_comm, Bool.or_comm b.isReference, Bool.or_comm b.isNull,
    Bool.and_comm b.isNull] at hba
  by_cases references : (a.isReference || b.isReference) = true
  · rw [if_pos references] at hab hba
    refine Or.inl ⟨_, hab, hba, fun s mismatched => ?_⟩
    rw [mismatched.spec.2.1] at references
    cases references
  rw [if_neg references] at hab hba
  by_cases nulls : (a.isNull || b.isNull) = true
  · rw [if_pos nulls] at hab hba
    refine Or.inl ⟨_, hab, hba, fun s mismatched => ?_⟩
    rw [mismatched.spec.2.2] at nulls
    cases nulls
  rw [if_neg nulls] at hab hba
  simp only [Bool.or_eq_true, not_or, Bool.not_eq_true] at references nulls
  -- what is left are numbers and at most one text
  rcases toNumber_cases ha references.1 nulls.1 with ⟨x, hx, a_number⟩ | ⟨s, word, _⟩
  · rcases toNumber_cases hb references.2 nulls.2 with ⟨y, hy, b_number⟩ | ⟨s, word, _⟩
    · refine Or.inl ⟨x == y, ?_, ?_, ?_⟩
      · rw [hab, equalNumbers, hx, hy]
        rfl
      · rw [hba, equalNumbers, hx, hy, float_beq_comm]
        rfl
      · rintro s (⟨word, _⟩ | ⟨word, _⟩)
        · exact a_number s word
        · exact b_number s word
    · have a_text : a.isText = false := by simpa [word.1, isText] using texts
      have numeric := isNumeric_of_not_text ha references.1 nulls.1 a_text
      exact (settled_of_word word numeric hba hab).symm
  · have b_text : b.isText = false := by simpa [word.1, isText] using texts
    have numeric := isNumeric_of_not_text hb references.2 nulls.2 b_text
    exact settled_of_word word numeric hab hba

end Value

/-- `==` and `!=` of what scripts can hold: the order of the operands never shows, one is the
negation of the other, and both fail for a text that spells no number beside a boolean or a number
and for nothing else. -/
theorem equality_symmetric (a b : Value) (ha : a.isRuntime = true) (hb : b.isRuntime = true) :
    BinaryOp.eq.apply a b = BinaryOp.eq.apply b a ∧
    (∀ v, BinaryOp.eq.apply a b = .ok v →
      ∃ r, v = .boolean r ∧ BinaryOp.ne.apply a b = .ok (.boolean !r)) ∧
    (∀ cause, BinaryOp.ne.apply a b = .error cause ↔ BinaryOp.eq.apply a b = .error cause) ∧
    ∀ cause, BinaryOp.eq.apply a b = .error cause ↔
      cause.kind = "OperandTypeError" ∧ ∃ s, a.Mismatched b s ∧ cause = .textOperand s "==" := by
  rcases Value.settled ha hb with ⟨r, hab, hba, matched⟩ | ⟨s, mismatched, hab, hba⟩
  · have eq : BinaryOp.eq.apply a b = .ok (.boolean r) := by rw [BinaryOp.apply, hab]; rfl
    have eq' : BinaryOp.eq.apply b a = .ok (.boolean r) := by rw [BinaryOp.apply, hba]; rfl
    have ne : BinaryOp.ne.apply a b = .ok (.boolean !r) := by rw [BinaryOp.apply, hab]; rfl
    rw [eq, eq', ne]
    refine ⟨rfl, ?_, ?_, ?_⟩
    · rintro _ ⟨⟩
      exact ⟨r, rfl, rfl⟩
    · intro cause
      constructor <;> rintro ⟨⟩
    · intro cause
      constructor
      · rintro ⟨⟩
      · rintro ⟨_, s, mismatched, _⟩
        exact absurd mismatched (matched s)
  · have eq : BinaryOp.eq.apply a b = .error (.textOperand s "==") := by
      rw [BinaryOp.apply, hab]; rfl
    have eq' : BinaryOp.eq.apply b a = .error (.textOperand s "==") := by
      rw [BinaryOp.apply, hba]; rfl
    have ne : BinaryOp.ne.apply a b = .error (.textOperand s "==") := by
      rw [BinaryOp.apply, hab]; rfl
    rw [eq, eq', ne]
    refine ⟨rfl, ?_, fun cause => Iff.rfl, ?_⟩
    · rintro _ ⟨⟩
    · intro cause
      constructor
      · rintro ⟨⟩
        exact ⟨rfl, s, mismatched, rfl⟩
      · rintro ⟨_, t, mismatched', rfl⟩
        rw [mismatched.unique mismatched']

/-- A word beside `true` is at fault from either side. -/
theorem equality_symmetric_word :
    (Value.text "one").isRuntime = true ∧ (Value.boolean true).isRuntime = true ∧
    BinaryOp.eq.apply (.boolean true) (.text "one") = .error (.textOperand "one" "==") ∧
    BinaryOp.ne.apply (.text "one") (.boolean true) = .error (.textOperand "one" "==") := by
  obtain ⟨symm, -, ne, fault⟩ := equality_symmetric (.text "one") (.boolean true) rfl rfl
  have word : (Value.text "one").IsWord "one" := ⟨rfl, by decide⟩
  have eq := (fault (.textOperand "one" "==")).2 ⟨rfl, "one", Or.inl ⟨word, rfl⟩, rfl⟩
  exact ⟨rfl, rfl, symm ▸ eq, (ne _).2 eq⟩

end ClassScript
