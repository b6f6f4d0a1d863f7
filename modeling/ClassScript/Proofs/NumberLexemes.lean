import Mathlib.Data.List.Basic
import ClassScript.Operator
import ClassScript.Proofs.LayoutIndependence
import ClassScript.Proofs.Lexemes

/-!
# Every number token reads as a number

The rule for numbers and the reading of numbers share one notion of a digit, the decimal digits of
all scripts. A lexeme of that rule is a numeral: digits, and perhaps a point and more digits. A
numeral reads as a number, which the values of its digits determine.
-/

namespace ClassScript

open Text

namespace Decimal

/-- The number that digits of any scripts spell. -/
def digitsOf (ds : List Char) : Nat :=
  ds.foldl (fun n c => 10 * n + (digitValue? c).getD 0) 0

/-- The point stands only in front of digits. -/
def pointed : List Char → List Char
  | [] => []
  | c :: cs => '.' :: c :: cs

/-- Digits, and perhaps a point and more of them. -/
structure Numeral where
  whole : List Char
  fraction : List Char
  nonempty : whole ≠ []
  isDigit_whole : ∀ c ∈ whole, isDigit c = true
  isDigit_fraction : ∀ c ∈ fraction, isDigit c = true

namespace Numeral

def chars (n : Numeral) : List Char :=
  n.whole ++ pointed n.fraction

/-- The number nearest to what the digits spell. -/
def value (n : Numeral) : Float :=
  scale (digitsOf (n.whole ++ n.fraction)) (-(n.fraction.length : Int))

end Numeral

section Digits

variable {c : Char}

theorem plainDigit_of_isDigit (h : isDigit c = true) :
    ∃ d < 10, digitValue? c = some d ∧ plainDigit c = Char.ofNat (48 + d) := by
  obtain ⟨d, hd⟩ := Option.isSome_iff_exists.mp h
  exact ⟨d, digitValue?_lt hd, hd, by rw [plainDigit, hd]⟩

theorem plainDigit_of_not_isDigit (h : isDigit c = false) : plainDigit c = c := by
  cases hd : digitValue? c with
  | none => rw [plainDigit, hd]
  | some d =>
    rw [isDigit, hd] at h
    cases h

/-- What an ASCII digit is to the reading of numbers. -/
theorem ofNat_digit : ∀ {d : Nat}, d < 10 →
    (Char.ofNat (48 + d)).isDigit = true ∧ (Char.ofNat (48 + d)).toNat - 48 = d ∧
      (Char.ofNat (48 + d)).toLower = Char.ofNat (48 + d) ∧
      isBlank (Char.ofNat (48 + d)) = false ∧ digitValue? (Char.ofNat (48 + d)) = some d := by
  decide

theorem plainDigit_plainDigit (c : Char) : plainDigit (plainDigit c) = plainDigit c := by
  cases h : isDigit c with
  | false => rw [plainDigit_of_not_isDigit h, plainDigit_of_not_isDigit h]
  | true =>
    obtain ⟨d, hlt, _, hplain⟩ := plainDigit_of_isDigit h
    obtain ⟨_, _, _, _, hvalue⟩ := ofNat_digit hlt
    rw [hplain, plainDigit, hvalue]

end Digits

theorem digitsValue_map_plainDigit {ds : List Char} (h : ∀ c ∈ ds, isDigit c = true) :
    digitsValue (ds.map plainDigit) = digitsOf ds := by
  rw [digitsValue, digitsOf, List.foldl_map]
  refine List.foldl_ext _ _ 0 fun n c hc => ?_
  obtain ⟨d, hlt, hvalue, hplain⟩ := plainDigit_of_isDigit (h c hc)
  rw [hplain, (ofNat_digit hlt).2.1, hvalue]
  rfl

section Reading

variable {cs : List Char}

theorem trimBlanks_eq (h : ∀ c ∈ cs, isBlank c = false) : trimBlanks cs = cs := by
  have kept (cs : List Char) (h : ∀ c ∈ cs, isBlank c = false) : cs.dropWhile isBlank = cs :=
    (Rule.takeWhile_of_head fun c hc => h c (List.mem_of_mem_head? hc)).2
  rw [trimBlanks, kept cs h, kept cs.reverse (by simpa using h), List.reverse_reverse]

theorem dropUnderscores_eq (h : ∀ c ∈ cs, c ≠ '_') {previous : Char} (hp : previous ≠ '_') :
    dropUnderscores previous cs = some cs := by
  induction cs generalizing previous with
  | nil => rw [dropUnderscores, if_neg (by simpa using hp)]
  | cons c cs ih =>
    have hc : c ≠ '_' := h c List.mem_cons_self
    rw [dropUnderscores, if_neg (by simpa using hc), if_neg (by simp [hp]),
      ih (fun d hd => h d (List.mem_cons_of_mem c hd)) hc]
    rfl

theorem takeSign_of_isDigit {c : Char} (h : c.isDigit = true) :
    takeSign (c :: cs) = (false, c :: cs) := by
  unfold takeSign
  split
  · rename_i heq
    cases heq
    cases h
  · rename_i heq
    cases heq
    cases h
  · rfl

/-- No word for a number starts with a digit. -/
theorem readWord?_of_digit {d : Nat} (h : d < 10) : readWord? (Char.ofNat (48 + d) :: cs) = none := by
  obtain ⟨hdigit, _, hlower, _⟩ := ofNat_digit h
  have apart {e : Char} (he : e.isDigit = false) : Char.ofNat (48 + d) ≠ e :=
    ne_of_apply hdigit he
  have hi := apart (e := 'i') (by decide)
  have hn := apart (e := 'n') (by decide)
  simp [readWord?, hlower, hi, hn]

theorem readMagnitude?_of_digits {whole fraction : List Char} (hne : whole ≠ [])
    (hwhole : ∀ c ∈ whole, c.isDigit = true) (hfraction : ∀ c ∈ fraction, c.isDigit = true) :
    readMagnitude? (whole ++ pointed fraction) =
      some (scale (digitsValue (whole ++ fraction)) (-(fraction.length : Int))) := by
  have hend : ∀ c ∈ ([] : List Char).head?, c.isDigit = false := by simp
  cases fraction with
  | nil =>
    obtain ⟨htake, hdrop⟩ := Rule.takeRun hwhole hend
    rw [List.append_nil] at htake hdrop
    simp [readMagnitude?, pointed, htake, hdrop, hne, readExponent?]
  | cons d fraction =>
    have hpoint : ∀ c ∈ (pointed (d :: fraction)).head?, c.isDigit = false := by
      intro c hc
      cases hc
      decide
    obtain ⟨htake, hdrop⟩ := Rule.takeRun hwhole hpoint
    obtain ⟨htake', hdrop'⟩ := Rule.takeRun hfraction hend
    rw [List.append_nil] at htake' hdrop'
    rw [readMagnitude?, htake, hdrop]
    simp only [pointed, htake', hdrop']
    simp [readExponent?]

end Reading

namespace Numeral

variable (n : Numeral)

theorem map_plainDigit : n.chars.map plainDigit =
    n.whole.map plainDigit ++ pointed (n.fraction.map plainDigit) := by
  have hpoint : plainDigit '.' = '.' := by decide
  rw [chars, List.map_append]
  cases n.fraction with
  | nil => rfl
  | cons c cs => rw [pointed, List.map_cons, hpoint]; rfl

/-- A digit is one in ASCII when it is written so. -/
theorem exists_of_mem_map {ds : List Char} (h : ∀ c ∈ ds, isDigit c = true) :
    ∀ c ∈ ds.map plainDigit, ∃ d < 10, c = Char.ofNat (48 + d) := by
  intro c hc
  obtain ⟨c', hc', rfl⟩ := List.mem_map.mp hc
  obtain ⟨d, hlt, _, hplain⟩ := plainDigit_of_isDigit (h c' hc')
  exact ⟨d, hlt, hplain⟩

theorem isDigit_of_mem_map {ds : List Char} (h : ∀ c ∈ ds, isDigit c = true) :
    ∀ c ∈ ds.map plainDigit, c.isDigit = true := by
  intro c hc
  obtain ⟨d, hlt, rfl⟩ := exists_of_mem_map h c hc
  exact (ofNat_digit hlt).1

/-- With its digits in ASCII a numeral has nothing but digits and a point. -/
theorem digit_or_point {c : Char} (h : c ∈ n.chars.map plainDigit) :
    (∃ d < 10, c = Char.ofNat (48 + d)) ∨ c = '.' := by
  rw [map_plainDigit] at h
  rcases List.mem_append.mp h with hc | hc
  · exact Or.inl (exists_of_mem_map n.isDigit_whole c hc)
  · cases hfraction : n.fraction.map plainDigit with
    | nil =>
      rw [hfraction] at hc
      cases hc
    | cons d ds =>
      rw [hfraction] at hc
      rcases List.mem_cons.mp hc with rfl | hc
      · exact Or.inr rfl
      · exact Or.inl (exists_of_mem_map n.isDigit_fraction c (hfraction ▸ hc))

theorem ne_underscore {c : Char} (h : c ∈ n.chars.map plainDigit) : c ≠ '_' := by
  rcases n.digit_or_point h with ⟨d, hlt, rfl⟩ | rfl
  · exact ne_of_apply (ofNat_digit hlt).1 (by decide)
  · decide

theorem not_isBlank {c : Char} (h : plainDigit c ∈ n.chars.map plainDigit) :
    isBlank c = false := by
  by_contra hblank
  have hblank : isBlank c = true := by simpa using hblank
  have hword := isWordChar_of_isBlank hblank
  -- a blank is no digit, so it is left as it is
  rw [plainDigit_of_not_isDigit (isDigit_of_not_isWordChar hword)] at h
  rcases n.digit_or_point h with ⟨d, hlt, rfl⟩ | rfl
  · rw [(ofNat_digit hlt).2.2.2.1] at hblank
    cases hblank
  · cases hblank

theorem starts_with_digit :
    ∃ d < 10, ∃ tail, n.chars.map plainDigit = Char.ofNat (48 + d) :: tail := by
  obtain ⟨c, whole, hwhole⟩ := List.exists_cons_of_ne_nil n.nonempty
  obtain ⟨d, hlt, _, hplain⟩ := plainDigit_of_isDigit (n.isDigit_whole c (by simp [hwhole]))
  refine ⟨d, hlt, ?_⟩
  rw [map_plainDigit, hwhole, List.map_cons, hplain]
  exact ⟨_, rfl⟩

theorem readMagnitude?_map : readMagnitude? (n.chars.map plainDigit) = some n.value := by
  have hdigits : ∀ c ∈ n.whole ++ n.fraction, isDigit c = true := by
    intro c hc
    rcases List.mem_append.mp hc with hc | hc
    · exact n.isDigit_whole c hc
    · exact n.isDigit_fraction c hc
  rw [map_plainDigit, readMagnitude?_of_digits (by simpa using n.nonempty)
    (isDigit_of_mem_map n.isDigit_whole) (isDigit_of_mem_map n.isDigit_fraction),
    ← List.map_append, digitsValue_map_plainDigit hdigits, List.length_map, value]

/-- A text that is a numeral up to the scripts of its digits reads as the value of the numeral. -/
theorem readFloat?_eq {text : String}
    (h : text.toList.map plainDigit = n.chars.map plainDigit) :
    Decimal.readFloat? text = some n.value := by
  have notBlank : ∀ c ∈ text.toList, isBlank c = false := fun c hc =>
    n.not_isBlank (h ▸ List.mem_map_of_mem hc)
  have noUnderscore : ∀ c ∈ n.chars.map plainDigit, c ≠ '_' := fun _ => n.ne_underscore
  obtain ⟨d, hlt, tail, htail⟩ := n.starts_with_digit
  rw [Decimal.readFloat?, trimBlanks_eq notBlank, h, dropUnderscores_eq noUnderscore (by decide),
    Option.bind_some, htail, takeSign_of_isDigit (ofNat_digit hlt).1]
  dsimp only
  rw [readWord?_of_digit hlt, Option.none_or, ← htail, readMagnitude?_map]
  rfl

end Numeral

end Decimal

namespace IsLexeme

open Decimal

/-- A lexeme of the rule for numbers is a numeral. -/
theorem exists_numeral {lexeme : List Char} (h : IsLexeme .number lexeme) :
    ∃ n : Numeral, n.chars = lexeme := by
  obtain ⟨r, hfirst, hkind, hlength⟩ := h.again (w := []) (by simp [Rule.Bounded])
  rw [List.append_nil] at hfirst hlength
  have only : ∀ r ∈ Rule.all, r.kind = some .number → r.extent = Rule.number := by
    simp [Rule.all]
  rw [only r (List.mem_of_find?_eq_some hfirst) hkind] at hlength
  have positive : Rule.number lexeme ≠ 0 := by
    rw [hlength]
    exact fun hzero => h.ne_nil (List.length_eq_zero_iff.mp hzero)
  have hdigits : ∀ c ∈ lexeme.takeWhile isDigit, isDigit c = true :=
    List.all_eq_true.mp List.all_takeWhile
  have nonempty := (Rule.number_ne_zero_iff.mp positive).1
  rcases Rule.number_cases positive with ⟨hlen, _⟩ | ⟨fraction, after, hsplit, hne, hfraction, _, hlen⟩
  · have hwhole : lexeme.takeWhile isDigit = lexeme :=
      (List.takeWhile_prefix _).eq_of_length (hlen.symm.trans hlength)
    exact ⟨⟨_, [], nonempty, hdigits, by simp⟩, by simp [Numeral.chars, pointed, hwhole]⟩
  · have hafter : after = [] := by
      have hcount := congrArg List.length hsplit
      simp only [List.length_append, List.length_cons] at hcount
      exact List.length_eq_zero_iff.mp (by omega)
    subst hafter
    rw [List.append_nil] at hsplit
    obtain ⟨d, ds, rfl⟩ := List.exists_cons_of_ne_nil hne
    exact ⟨⟨_, d :: ds, nonempty, hdigits, hfraction⟩, hsplit.symm⟩

end IsLexeme

namespace Decimal

/-- The text with every digit replaced by the ASCII digit of the same value. -/
def plain (text : String) : String :=
  String.ofList (text.toList.map plainDigit)

theorem plain_plain (text : String) : plain (plain text) = plain text := by
  rw [plain, plain, String.toList_ofList, List.map_map]
  congr 2
  funext c
  exact plainDigit_plainDigit c

/-- The text is as good as the number: to the reading of numbers, as a literal, and as an operand
wherever a number is wanted. Addition joins texts, and equality compares them. -/
structure StandsFor (text : String) (x : Float) : Prop where
  read : readFloat? text = some x
  literal : Parser.numberValue text = x
  toNumber (operation : String) : (Value.text text).toNumber operation = .ok x
  unary (op : UnaryOp) : op ≠ .not → op.apply (.text text) = op.apply (.number x)
  left (op : BinaryOp) (v : Value) : op ∉ [.add, .eq, .ne] →
    op.apply (.text text) v = op.apply (.number x) v
  right (op : BinaryOp) (v : Value) : op ∉ [.add, .eq, .ne] →
    op.apply v (.text text) = op.apply v (.number x)

theorem apply_of_numeric {op : BinaryOp} (h : op ∉ [.add, .eq, .ne]) (left right : Value) :
    op.apply left right = (do
      let (a, b) ← numericOperands op.symbol left right
      op.onNumbers a b) := by
  cases op <;> first | rfl | exact absurd (by decide) h

theorem standsFor_of_read {text : String} {x : Float} (h : readFloat? text = some x) :
    StandsFor text x := by
  have toNumber (operation : String) : (Value.text text).toNumber operation = .ok x := by
    rw [Value.toNumber, h]
  have same (operation : String) :
      (Value.text text).toNumber operation = (Value.number x).toNumber operation :=
    toNumber operation
  refine ⟨h, ?_, toNumber, ?_, ?_, ?_⟩
  · rw [Parser.numberValue, h, Option.getD_some]
  · intro op hnot
    cases op with
    | not => exact absurd rfl hnot
    | _ => rw [UnaryOp.apply, UnaryOp.apply, same]
  · intro op v hop
    rw [apply_of_numeric hop, apply_of_numeric hop, numericOperands, numericOperands, same]
  · intro op v hop
    rw [apply_of_numeric hop, apply_of_numeric hop, numericOperands, numericOperands, same]

end Decimal

open Decimal

theorem parseSource_ends (depth : Nat) (source : String) :
    (∃ p, parseSource depth source = .ok p) ∨
      (∃ e, parseSource depth source = .error (.malformed e)) ∨
      parseSource depth source = .error .tooDeep ∧
        ∃ ts, tokenize source = .ok ts ∧ depth ≤ ts.length + 1 := by
  cases hts : tokenize source with
  | error e =>
    rw [parseSource, hts]
    exact Or.inr (Or.inl ⟨_, rfl⟩)
  | ok ts =>
    rw [parseSource_of_tokenize hts]
    cases hp : parseTokens depth ts with
    | ok p => exact Or.inl ⟨p, rfl⟩
    | error e =>
      cases e with
      | unexpected e => exact Or.inr (Or.inl ⟨_, rfl⟩)
      | tooDeep => exact Or.inr (Or.inr ⟨rfl, ts, rfl, le_length_of_tooDeep hp⟩)

/-- Every number token of a source is a numeral, in whatever scripts its digits are. The values of
its digits alone determine the number that it stands for, as a literal and as a text. So a source
either has a tree, or is malformed, or nests deeper than the parser may go, which takes as many
tokens as there may be levels, or one less. -/
theorem number_tokens_read (source : String) :
    (∀ t ∈ (scan source).tokens, t.kind = .number →
      ∃ n : Numeral, n.chars = t.text.toList ∧ StandsFor t.text n.value ∧
        StandsFor (plain t.text) n.value ∧
        ∀ text, plain text = plain t.text → StandsFor text n.value) ∧
    ∀ depth, (∃ p, parseSource depth source = .ok p) ∨
      (∃ e, parseSource depth source = .error (.malformed e)) ∨
      parseSource depth source = .error .tooDeep ∧
        ∃ ts, tokenize source = .ok ts ∧ depth ≤ ts.length + 1 := by
  refine ⟨fun t ht hkind => ?_, fun depth => parseSource_ends depth source⟩
  have lexeme := ((Scan.standsIn source).1 t ht).isLexeme
  rw [hkind] at lexeme
  obtain ⟨n, hn⟩ := lexeme.exists_numeral
  have reads (text : String) (h : plain text = plain t.text) : StandsFor text n.value := by
    apply standsFor_of_read
    apply n.readFloat?_eq
    have chars := congrArg String.toList h
    rwa [plain, plain, String.toList_ofList, String.toList_ofList, ← hn] at chars
  exact ⟨n, hn, reads _ rfl, reads _ (plain_plain _), reads⟩

/-- Three and a half in Arabic-Indic digits. -/
theorem number_tokens_read_arabic :
    ⟨.number, "\u0663.\u0665", 1, 5⟩ ∈ (scan "x = \u0663.\u0665;").tokens ∧
      Parser.numberValue "\u0663.\u0665" = Parser.numberValue "3.5" := by
  have token : ⟨.number, "\u0663.\u0665", 1, 5⟩ ∈ (scan "x = \u0663.\u0665;").tokens := by
    decide +kernel
  obtain ⟨n, _, own, ascii, _⟩ := (number_tokens_read _).1 _ token rfl
  have plain : Decimal.plain "\u0663.\u0665" = "3.5" := by decide +kernel
  rw [plain] at ascii
  exact ⟨token, own.literal.trans ascii.literal.symm⟩

/-- Nine thousand opening parentheses nest deeper than the parser may go. -/
theorem openings_neither_parsed_nor_malformed :
    ¬((∃ p, parseSource Limits.standard.syntaxDepth (openings 9000) = .ok p) ∨
      ∃ e, parseSource Limits.standard.syntaxDepth (openings 9000) = .error (.malformed e)) := by
  obtain ⟨ts, hts, faces⟩ := tokenize_openings 9000
  have deep : parseTokens Limits.standard.syntaxDepth ts = .error .tooDeep :=
    parseTokens_openings (n := 8999) (by decide) faces
  rw [parseSource_of_tokenize hts, deep]
  rintro (⟨p, hp⟩ | ⟨e, he⟩)
  · cases hp
  · cases he

end ClassScript
