import ClassScript.Data.Yaml.Reader
import ClassScript.Proofs.JsonRoundTrip

/-!
# YAML scalars are read back

A value that takes no lines of its own is written on one line, from which it is read back; and that
line is mistaken for no item and for no entry. A word stands between quotes when it would be read as
something else without them, so that words for booleans and null are read back as words too. Between
quotes any text will do that has no line feed.

A key is written as a text is, and in front of its colon it is read back as well.
-/

namespace ClassScript.Yaml

/-- A text that fits on a line. -/
def OneLine (s : String) : Prop :=
  '\n' ∉ s.toList

/-- One character between quotes. -/
def quoteChar (c : Char) : List Char :=
  if c == '\'' then ['\'', '\''] else [c]

theorem quoteText_eq (cs : List Char) :
    quoteText cs = '\'' :: (cs.flatMap quoteChar ++ ['\'']) := rfl

/-- A quoted text is read up to its closing quote. -/
theorem unquote_quoted (cs rest : List Char) (hrest : rest.head? ≠ some '\'') :
    unquote (cs.flatMap quoteChar ++ '\'' :: rest) = some (cs, rest) := by
  induction cs with
  | nil =>
    rw [List.flatMap_nil, List.nil_append, unquote]
    · rfl
    · rintro tail _ rfl
      exact hrest rfl
  | cons c cs ih =>
    rw [List.flatMap_cons, List.append_assoc]
    by_cases hc : c = '\''
    · subst hc
      change unquote ('\'' :: '\'' :: (cs.flatMap quoteChar ++ '\'' :: rest)) = _
      rw [unquote, ih]
      rfl
    · have hplain : quoteChar c = [c] := by simp [quoteChar, hc]
      rw [hplain, List.singleton_append, unquote, ih]
      · simp [hc]
      · exact fun _ hquote => absurd hquote hc

theorem isPlain_cases {s : String} (h : isPlain s = true) :
    ∃ c cs, s.toList = c :: cs ∧ isPlainStart c = true ∧ (∀ d ∈ cs, isPlainChar d = true) ∧
      isReserved s = false := by
  rw [isPlain] at h
  cases hs : s.toList with
  | nil =>
    rw [hs] at h
    cases h
  | cons c cs =>
    rw [hs] at h
    simp only [Bool.and_eq_true, Bool.not_eq_true', List.all_eq_true] at h
    exact ⟨c, cs, rfl, h.1.1, h.1.2, h.2⟩

theorem isPlainChar_of_isPlainStart {c : Char} (hc : isPlainStart c = true) :
    isPlainChar c = true := by
  rw [isPlainStart, Bool.or_eq_true] at hc
  rcases hc with hc | hc <;> simp [isPlainChar, Char.isAlphanum, hc]

theorem not_isDigit_of_isPlainStart {c : Char} (hc : isPlainStart c = true) :
    c.isDigit = false := by
  rw [isPlainStart, Bool.or_eq_true, beq_iff_eq] at hc
  rcases hc with hc | rfl
  · exact Text.not_isDigit_of_isAlpha hc
  · decide

/-- All characters of a plain word are plain, the first included. -/
theorem isPlainChar_of_isPlain {s : String} (h : isPlain s = true) :
    ∀ c ∈ s.toList, isPlainChar c = true := by
  obtain ⟨c, cs, hs, hc, hcs, _⟩ := isPlain_cases h
  rw [hs]
  intro d hd
  rcases List.mem_cons.mp hd with rfl | hd
  · exact isPlainChar_of_isPlainStart hc
  · exact hcs d hd

/-- The line is no item, not moved in, and not the mark of the end of the text. -/
def Unmarked (line : List Char) : Prop :=
  ∃ c cs, line = c :: cs ∧ c ≠ ' ' ∧ c ≠ '.' ∧ (c = '-' → cs.head? ≠ some ' ')

section Unmarked

variable {line : List Char}

theorem Unmarked.not_indented (h : Unmarked line) : isIndented line = false := by
  obtain ⟨c, cs, rfl, hspace, _⟩ := h
  unfold isIndented
  split
  · rename_i heq
    exact absurd (List.cons.inj heq).1 hspace
  · rfl

theorem Unmarked.not_dashed (h : Unmarked line) : isDashed line = false := by
  obtain ⟨c, cs, rfl, _, _, hdash⟩ := h
  unfold isDashed
  split
  · rename_i heq
    cases heq
    exact absurd rfl (hdash rfl)
  · rfl

theorem Unmarked.head_ne (h : Unmarked line) : line.head? ≠ some '.' := by
  obtain ⟨c, cs, rfl, _, hpoint, _⟩ := h
  exact fun heq => hpoint (Option.some.inj heq)

theorem unmarked_writeText (s : String) (after : List Char) : Unmarked (writeText s ++ after) := by
  rw [writeText]
  by_cases hplain : isPlain s = true
  · obtain ⟨c, cs, hs, hc, _⟩ := isPlain_cases hplain
    rw [if_pos hplain, hs]
    refine ⟨c, cs ++ after, rfl, Text.ne_of_apply hc (by decide),
      Text.ne_of_apply hc (by decide), fun heq => ?_⟩
    exact absurd heq (Text.ne_of_apply hc (by decide))
  · rw [if_neg hplain]
    exact ⟨'\'', _, rfl, by decide, by decide, fun heq => absurd heq (by decide)⟩

end Unmarked

theorem newline_not_mem_writeText {s : String} (h : OneLine s) : '\n' ∉ writeText s := by
  rw [writeText]
  by_cases hplain : isPlain s = true
  · rw [if_pos hplain]
    exact h
  · rw [if_neg hplain, quoteText_eq]
    intro hmem
    simp only [List.mem_cons, List.mem_append, List.mem_flatMap, List.not_mem_nil, or_false] at hmem
    rcases hmem with heq | ⟨c, hc, hquote⟩ | heq
    · exact absurd heq (by decide)
    · rw [quoteChar] at hquote
      split at hquote
      · simp at hquote
      · rw [List.mem_singleton] at hquote
        exact h (hquote ▸ hc)
    · exact absurd heq (by decide)

section Keys

/-- What stands behind the colon of an entry, if there is a colon. -/
def behindColon? : List Char → Option (List Char)
  | ':' :: ' ' :: value => some value
  | [':'] => some []
  | _ => none

theorem splitKey?_quoted (cs rest : List Char) (hrest : rest.head? ≠ some '\'') :
    splitKey? (quoteText cs ++ rest) = (behindColon? rest).map (String.ofList cs, ·) := by
  rw [quoteText_eq, List.cons_append, List.append_assoc, List.singleton_append, splitKey?,
    unquote_quoted cs rest hrest]
  unfold behindColon?
  split <;> simp_all

theorem splitKey?_unquoted {run : List Char} (rest : List Char)
    (hquote : (run ++ rest).head? ≠ some '\'') (hrun : ':' ∉ run)
    (hrest : ∀ c ∈ rest.head?, c = ':') :
    splitKey? (run ++ rest) = (behindColon? rest).map (String.ofList run, ·) := by
  have hkey : ∀ c ∈ run, (c != ':') = true := by
    intro c hc
    rw [bne_iff_ne]
    rintro rfl
    exact hrun hc
  have hstop : ∀ c ∈ rest.head?, (c != ':') = false := by
    intro c hc
    rw [hrest c hc]
    rfl
  obtain ⟨htake, hdrop⟩ := Rule.takeRun hkey hstop
  unfold splitKey?
  split
  · rename_i heq
    rw [heq] at hquote
    exact absurd rfl hquote
  · rw [htake, hdrop]
    unfold behindColon?
    split <;> simp_all only [Option.map_some, Option.map_none]

/-- A key is read back in front of its colon, and without a colon nothing is a key. -/
theorem splitKey?_writeText (key : String) (rest : List Char)
    (hrest : ∀ c ∈ rest.head?, c = ':') :
    splitKey? (writeText key ++ rest) = (behindColon? rest).map (key, ·) := by
  rw [writeText]
  by_cases hplain : isPlain key = true
  · obtain ⟨c, cs, hs, hc, _⟩ := isPlain_cases hplain
    have hquote : (key.toList ++ rest).head? ≠ some '\'' := by
      rw [hs, List.cons_append, List.head?_cons]
      exact fun heq => Text.ne_of_apply hc (by decide) (Option.some.inj heq)
    have hcolon : ':' ∉ key.toList := by
      intro hmem
      exact Text.ne_of_apply (isPlainChar_of_isPlain hplain _ hmem) (by decide) rfl
    rw [if_pos hplain, splitKey?_unquoted rest hquote hcolon hrest, String.ofList_toList]
  · have hquote : rest.head? ≠ some '\'' := by
      intro heq
      exact absurd (hrest _ heq) (by decide)
    rw [if_neg hplain, splitKey?_quoted _ _ hquote, String.ofList_toList]

theorem splitKey?_eq_none {line : List Char} (hquote : line.head? ≠ some '\'')
    (hcolon : ':' ∉ line) : splitKey? line = none := by
  have h := splitKey?_unquoted [] (by rwa [List.append_nil]) hcolon (by simp)
  rwa [List.append_nil] at h

end Keys

/-- The line is how the value is written; it is read back from it, and the line is not mistaken for
an item or an entry. -/
structure IsScalar (d : Data) (line : List Char) : Prop where
  written : writeInline? d = some line
  read : readInline? line = some d
  keyless : splitKey? line = none
  unmarked : Unmarked line
  no_feed : '\n' ∉ line

section Plain

theorem readInline?_plain {c : Char} (cs : List Char) (hquote : c ≠ '\'') (hlist : c ≠ '[')
    (hmap : c ≠ '\x7b') : readInline? (c :: cs) = some (readPlain (c :: cs)) := by
  rw [readInline?]
  · exact List.cons_ne_nil c cs
  · exact fun heq => hlist (List.cons.inj heq).1
  · exact fun heq => hmap (List.cons.inj heq).1
  · exact fun _ heq => hquote (List.cons.inj heq).1

theorem readPlain_of_not_reserved {cs : List Char} (h : isReserved (String.ofList cs) = false) :
    readPlain cs = ((readInt? cs).map Data.int).getD (.text (String.ofList cs)) := by
  simp only [isReserved, Bool.or_eq_false_iff] at h
  simp only [readPlain, h.1.1, h.1.2, h.2, Bool.false_eq_true, if_false]
  cases readInt? cs <;> rfl

/-- The reserved words start with a letter, but for one. -/
theorem isReserved_eq_false {c : Char} {cs : List Char} (hletter : c.isAlpha = false)
    (htilde : c ≠ '~') : isReserved (String.ofList (c :: cs)) = false := by
  have heads : ∀ s ∈ nullWords ++ trueWords ++ falseWords,
      s.toList.head?.any (fun d => d.isAlpha || d == '~') = true := by
    decide
  refine Bool.eq_false_iff.mpr fun h => ?_
  simp only [isReserved, Bool.or_eq_true, List.contains_iff_mem] at h
  have hhead := heads (String.ofList (c :: cs)) (by simpa [or_assoc] using h)
  rw [String.toList_ofList, List.head?_cons, Option.any_some, hletter, Bool.false_or,
    beq_iff_eq] at hhead
  exact htilde hhead

theorem foldl_digits {ds : List Char} (hall : ∀ c ∈ ds, c.isDigit = true) (n : Nat) :
    ds.foldl (fun (n : Int) c => 10 * n + (c.toNat - 48)) n =
      (ds.foldl (fun n c => 10 * n + (c.toNat - 48)) n : Nat) := by
  induction ds generalizing n with
  | nil => rfl
  | cons c cs ih =>
    have hc : 48 ≤ c.toNat := (Char.isDigit_iff_toNat.mp (hall c List.mem_cons_self)).1
    have hstep : 10 * (n : Int) + (c.toNat - 48) = (10 * n + (c.toNat - 48) : Nat) := by omega
    rw [List.foldl_cons, List.foldl_cons, hstep, ih fun d hd => hall d (List.mem_cons_of_mem c hd)]

/-- Digits are read as they are, and behind a minus sign too. -/
theorem readInt?_digits {ds : List Char} (hne : ds ≠ []) (hall : ∀ c ∈ ds, c.isDigit = true) :
    readInt? ds = some (Decimal.digitsValue ds : Int) ∧
      readInt? ('-' :: ds) = some (-(Decimal.digitsValue ds : Int)) := by
  have hdigits : (ds.isEmpty || !ds.all Char.isDigit) = false := by
    simp [hne, List.all_eq_true.mpr hall]
  have hvalue := foldl_digits hall 0
  constructor
  · cases ds with
    | nil => exact absurd rfl hne
    | cons c cs =>
      have hc := hall c List.mem_cons_self
      have hminus : c ≠ '-' := Text.ne_of_apply hc (by decide)
      unfold readInt?
      split
      · rename_i heq
        exact absurd (List.cons.inj heq).1 hminus
      · rename_i heq
        exact absurd (List.cons.inj heq).1 (Text.ne_of_apply hc (by decide))
      · simp only [hdigits, hvalue, Bool.false_eq_true, if_false]
        simp [hminus, Decimal.digitsValue]
  · simp only [readInt?, hdigits, hvalue, Bool.false_eq_true, if_false]
    simp [Decimal.digitsValue]

theorem readInt?_writeInt (n : Int) : readInt? (Json.writeInt n) = some n := by
  have hread (n : Nat) := readInt?_digits (Nat.toDigits_ne_nil (b := 10) (n := n)) fun c hc =>
    Nat.isDigit_of_mem_toDigits (by decide) (by decide) hc
  simp only [Json.digitsValue_toDigits] at hread
  cases n with
  | ofNat n => exact (hread n).1
  | negSucc n => exact (hread (n + 1)).2

/-- A word is read as the number that it spells only if it starts with a digit or a sign. -/
theorem readInt?_eq_none {c : Char} (cs : List Char) (hdigit : c.isDigit = false) (hminus : c ≠ '-')
    (hplus : c ≠ '+') : readInt? (c :: cs) = none := by
  unfold readInt?
  split
  · rename_i heq
    exact absurd (List.cons.inj heq).1 hminus
  · rename_i heq
    exact absurd (List.cons.inj heq).1 hplus
  · simp [hdigit]

end Plain

section Scalars

theorem isScalar_null : IsScalar .null "null".toList :=
  ⟨rfl, rfl, by decide, ⟨'n', _, rfl, by decide, by decide, by decide⟩, by decide⟩

theorem isScalar_boolean (b : Bool) :
    IsScalar (.boolean b) (if b then "true".toList else "false".toList) := by
  cases b with
  | false => exact ⟨rfl, rfl, by decide, ⟨'f', _, rfl, by decide, by decide, by decide⟩, by decide⟩
  | true => exact ⟨rfl, rfl, by decide, ⟨'t', _, rfl, by decide, by decide, by decide⟩, by decide⟩

theorem isScalar_list : IsScalar (.list []) ['[', ']'] :=
  ⟨rfl, rfl, by decide, ⟨'[', _, rfl, by decide, by decide, by decide⟩, by decide⟩

theorem isScalar_map : IsScalar (.map []) ['\x7b', '\x7d'] :=
  ⟨rfl, rfl, by decide, ⟨'\x7b', _, rfl, by decide, by decide, by decide⟩, by decide⟩

theorem unmarked_writeInt (n : Int) : Unmarked (Json.writeInt n) := by
  cases n with
  | ofNat n =>
    obtain ⟨c, cs, hdigits, hc⟩ := Json.exists_toDigits n
    have hne {d : Char} (hd : d.isDigit = false) : c ≠ d := Text.ne_of_apply hc hd
    refine ⟨c, cs, hdigits, hne (by decide), hne (by decide), fun heq => ?_⟩
    exact absurd heq (hne (by decide))
  | negSucc n =>
    obtain ⟨c, cs, hdigits, hc⟩ := Json.exists_toDigits (n + 1)
    refine ⟨'-', _, rfl, by decide, by decide, fun _ => ?_⟩
    rw [hdigits, List.head?_cons]
    exact fun heq => Text.ne_of_apply hc (by decide) (Option.some.inj heq)

theorem isScalar_int (n : Int) : IsScalar (.int n) (Json.writeInt n) := by
  obtain ⟨c, cs, hline, hmem⟩ := Json.head_writeInt n
  have hne {d : Char} (hd : d.isDigit = false) (hminus : d ≠ '-') : c ≠ d :=
    Json.ne_of_mem_writeInt hmem hd hminus
  have hletter : c.isAlpha = false := by
    refine Bool.eq_false_iff.mpr fun halpha => ?_
    rcases Json.mem_writeInt hmem with hdigit | rfl
    · rw [Text.not_isDigit_of_isAlpha halpha] at hdigit
      cases hdigit
    · cases halpha
  constructor
  · rfl
  · have hint := readInt?_writeInt n
    rw [hline] at hint ⊢
    rw [readInline?_plain cs (hne (by decide) (by decide)) (hne (by decide) (by decide))
        (hne (by decide) (by decide)),
      readPlain_of_not_reserved (isReserved_eq_false hletter (hne (by decide) (by decide))), hint]
    rfl
  · refine splitKey?_eq_none ?_ fun hcolon => ?_
    · rw [hline]
      exact fun heq => hne (by decide) (by decide) (Option.some.inj heq)
    · exact Json.ne_of_mem_writeInt hcolon (by decide) (by decide) rfl
  · exact unmarked_writeInt n
  · exact fun hfeed => Json.ne_of_mem_writeInt hfeed (by decide) (by decide) rfl

theorem readInline?_writeText (s : String) : readInline? (writeText s) = some (.text s) := by
  rw [writeText]
  by_cases hplain : isPlain s = true
  · obtain ⟨c, cs, hs, hc, _, hreserved⟩ := isPlain_cases hplain
    have hne {d : Char} (hd : isPlainStart d = false) : c ≠ d := Text.ne_of_apply hc hd
    have hword : s = String.ofList (c :: cs) := by rw [← hs, String.ofList_toList]
    rw [hword] at hreserved
    rw [if_pos hplain, hs,
      readInline?_plain cs (hne (by decide)) (hne (by decide)) (hne (by decide)),
      readPlain_of_not_reserved hreserved, readInt?_eq_none cs (not_isDigit_of_isPlainStart hc)
        (hne (by decide)) (hne (by decide)), hword]
    rfl
  · rw [if_neg hplain, quoteText_eq, readInline?, unquote_quoted _ _ (by simp)]
    simp

theorem isScalar_text {s : String} (h : OneLine s) : IsScalar (.text s) (writeText s) := by
  have hunmarked := unmarked_writeText s []
  have hkeyless := splitKey?_writeText s [] (by simp)
  rw [List.append_nil] at hunmarked hkeyless
  exact ⟨rfl, readInline?_writeText s, hkeyless, hunmarked, newline_not_mem_writeText h⟩

end Scalars

end ClassScript.Yaml
