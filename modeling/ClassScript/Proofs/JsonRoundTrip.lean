import ClassScript.Data.Format
import ClassScript.Proofs.Lexemes
import ClassScript.Proofs.PlainData

/-!
# JSON texts are read back

Either layout of a value without floats is read back to the same value, with the keys of its maps in
the same order, when its containers nest no deeper than the reader goes. A deeper value is refused,
by the writer and, in either layout, by the reader: up to the container that there is no room for,
all is read as it has been written.

What is written stands in front of some rest when it is read, so the lemmas say what the reader
leaves over. After a number the rest must not go on with it. Blanks are written only where the
reader skips them, and every value starts with a character that is no blank and closes no container.

The reader is given as many steps as twice the length of its text and one more. Two steps are used
up for each level of nesting and one for each item, and both cost characters.
-/

namespace ClassScript.Json

theorem skipSpace_append {gap rest : List Char} (hgap : ∀ c ∈ gap, isSpace c = true) :
    skipSpace (gap ++ rest) = skipSpace rest :=
  List.dropWhile_append_of_pos hgap

theorem skipSpace_of_not {c : Char} (hc : isSpace c = false) (cs : List Char) :
    skipSpace (c :: cs) = c :: cs := by
  simp [skipSpace, hc]

section Texts

theorem hexValue?_hexDigit {d : Nat} (h : d < 16) : hexValue? (Text.hexDigit d) = some d := by
  have digits : ∀ d < 16, hexValue? (Text.hexDigit d) = some d := by decide
  exact digits d h

theorem readUnit?_hexDigits {n : Nat} (h : n < 65536) (rest : List Char) :
    readUnit? (Text.hexDigits 4 n ++ rest) = some (n, rest) := by
  have digits : Text.hexDigits 4 n = [Text.hexDigit (n / 4096 % 16), Text.hexDigit (n / 256 % 16),
      Text.hexDigit (n / 16 % 16), Text.hexDigit (n / 1 % 16)] := rfl
  have value : ((n / 4096 % 16 * 16 + n / 256 % 16) * 16 + n / 16 % 16) * 16 + n % 16 = n := by
    omega
  rw [digits]
  simp only [List.cons_append, List.nil_append, readUnit?]
  rw [hexValue?_hexDigit (by omega), hexValue?_hexDigit (by omega), hexValue?_hexDigit (by omega),
    hexValue?_hexDigit (by omega)]
  simp [value]

theorem readCodePoint?_hexDigits {n : Nat} (h : n < 32) (rest : List Char) :
    readCodePoint? (Text.hexDigits 4 n ++ rest) = some (Char.ofNat n, rest) := by
  rw [readCodePoint?, readUnit?_hexDigits (by omega)]
  have high : ¬(0xD800 ≤ n ∧ n < 0xDC00) := by omega
  have low : ¬(0xDC00 ≤ n ∧ n < 0xE000) := by omega
  simp [high, low]

/-- A character is written by an escape of one letter, by its code point, or as itself. -/
theorem escapeChar_cases (c : Char) :
    (∃ e, e ≠ 'u' ∧ unescape? e = some c ∧ escapeChar c = ['\\', e]) ∨
    (c.toNat < 32 ∧ escapeChar c = '\\' :: 'u' :: Text.hexDigits 4 c.toNat) ∨
    (c ≠ '"' ∧ c ≠ '\\' ∧ ¬c.toNat < 32 ∧ escapeChar c = [c]) := by
  have ofCode {n : Nat} (h : c.toNat = n) : c = Char.ofNat n := by
    rw [← h, Char.ofNat_toNat]
  by_cases hquote : c = '"'
  · exact Or.inl ⟨'"', by decide, by rw [hquote]; rfl, by rw [hquote]; rfl⟩
  by_cases hslash : c = '\\'
  · exact Or.inl ⟨'\\', by decide, by rw [hslash]; rfl, by rw [hslash]; rfl⟩
  by_cases hfeed : c = '\n'
  · exact Or.inl ⟨'n', by decide, by rw [hfeed]; rfl, by rw [hfeed]; rfl⟩
  by_cases hreturn : c = '\r'
  · exact Or.inl ⟨'r', by decide, by rw [hreturn]; rfl, by rw [hreturn]; rfl⟩
  by_cases htab : c = '\t'
  · exact Or.inl ⟨'t', by decide, by rw [htab]; rfl, by rw [htab]; rfl⟩
  by_cases hback : c.toNat = 8
  · exact Or.inl ⟨'b', by decide, by rw [ofCode hback]; rfl, by rw [ofCode hback]; rfl⟩
  by_cases hform : c.toNat = 12
  · exact Or.inl ⟨'f', by decide, by rw [ofCode hform]; rfl, by rw [ofCode hform]; rfl⟩
  by_cases hcontrol : c.toNat < 32
  · exact Or.inr (Or.inl ⟨hcontrol, by
      simp [escapeChar, hquote, hslash, hfeed, hreturn, htab, hback, hform, hcontrol]⟩)
  · exact Or.inr (Or.inr ⟨hquote, hslash, hcontrol, by
      simp [escapeChar, hquote, hslash, hfeed, hreturn, htab, hback, hform, hcontrol]⟩)

/-- One character as it is written takes one step to read. -/
theorem readText_escapeChar (fuel : Nat) (c : Char) (rest : List Char) :
    readText (fuel + 1) (escapeChar c ++ rest) =
      (readText fuel rest).map fun (text, after) => (c :: text, after) := by
  have slash : ('\\' == '"') = false := rfl
  rcases escapeChar_cases c with ⟨e, he, hc, hwritten⟩ | ⟨hcontrol, hwritten⟩ |
    ⟨hquote, hslash, hcontrol, hwritten⟩
  · rw [hwritten, List.cons_append, List.singleton_append, readText]
    · simp only [slash, Bool.false_eq_true, if_false, beq_self_eq_true, if_true, hc]
      cases readText fuel rest <;> rfl
    · exact he
  · rw [hwritten, List.cons_append, List.cons_append, readText]
    simp only [slash, Bool.false_eq_true, if_false, beq_self_eq_true, if_true,
      readCodePoint?_hexDigits hcontrol, Char.ofNat_toNat, Option.bind_eq_bind, Option.bind_some]
    cases readText fuel rest <;> rfl
  · rw [hwritten, List.singleton_append, readText.eq_def]
    simp only [beq_false_of_ne hquote, beq_false_of_ne hslash, hcontrol, Bool.false_eq_true,
      if_false]
    cases readText fuel rest <;> rfl

/-- A text is read up to its closing quote. -/
theorem readText_escaped (cs rest : List Char) (fuel : Nat) (hfuel : cs.length < fuel) :
    readText fuel (cs.flatMap escapeChar ++ '"' :: rest) = some (cs, rest) := by
  induction cs generalizing fuel with
  | nil =>
    cases fuel with
    | zero => cases hfuel
    | succ fuel => rfl
  | cons c cs ih =>
    cases fuel with
    | zero => cases hfuel
    | succ fuel =>
      rw [List.length_cons] at hfuel
      rw [List.flatMap_cons, List.append_assoc, readText_escapeChar, ih fuel (by omega)]
      rfl

theorem length_le_escaped (cs : List Char) : cs.length ≤ (cs.flatMap escapeChar).length := by
  induction cs with
  | nil => exact Nat.le_refl 0
  | cons c cs ih =>
    have hone : 1 ≤ (escapeChar c).length := by
      rcases escapeChar_cases c with ⟨e, _, _, hwritten⟩ | ⟨_, hwritten⟩ | ⟨_, _, _, hwritten⟩
      all_goals simp [hwritten]
    rw [List.flatMap_cons, List.length_append, List.length_cons]
    omega

theorem readString?_writeText (s : String) (rest : List Char) :
    readString? (writeText s ++ rest) = some (s, rest) := by
  have hlen := length_le_escaped s.toList
  rw [writeText, List.cons_append, List.append_assoc, List.singleton_append, readString?,
    readText_escaped]
  · simp
  · rw [List.length_append]
    omega

end Texts

section Numbers

/-- A character that goes on with a number in front of it. -/
def continuesNumber (c : Char) : Bool :=
  c.isDigit || c == '.' || c == 'e' || c == 'E'

/-- What stands here ends every number before it. -/
def Ends (rest : List Char) : Prop :=
  ∀ c ∈ rest.head?, continuesNumber c = false

theorem ends_cons {c : Char} (hc : continuesNumber c = false) (cs : List Char) :
    Ends (c :: cs) := by
  intro d hd
  cases hd
  exact hc

variable {rest : List Char}

theorem readFraction_of_ends (h : Ends rest) : readFraction rest = ([], rest) := by
  unfold readFraction
  split
  · exact absurd (h '.' rfl) (by decide)
  · rfl

theorem readExponent_of_ends (h : Ends rest) : readExponent rest = ([], rest) := by
  cases rest with
  | nil => rfl
  | cons c cs =>
    have hc := h c rfl
    simp only [continuesNumber, Bool.or_eq_false_iff] at hc
    simp [readExponent, hc.1.2, hc.2]

/-- Only the numeral of zero starts with a zero. -/
theorem head_toDigits {n : Nat} (h : 0 < n) : ∃ c cs, Nat.toDigits 10 n = c :: cs ∧ c ≠ '0' := by
  induction n using Nat.strongRecOn with
  | ind n ih =>
    rw [Nat.toDigits_eq_if (by decide)]
    by_cases hsmall : n < 10
    · refine ⟨n.digitChar, [], if_pos hsmall, ?_⟩
      rw [ne_eq, Nat.digitChar_eq_zero]
      omega
    · obtain ⟨c, cs, hdigits, hc⟩ := ih (n / 10) (by omega) (by omega)
      exact ⟨c, cs ++ [(n % 10).digitChar], by rw [if_neg hsmall, hdigits]; rfl, hc⟩

theorem readWhole?_toDigits (n : Nat) (h : Ends rest) :
    readWhole? (Nat.toDigits 10 n ++ rest) = some (Nat.toDigits 10 n, rest) := by
  by_cases hn : n = 0
  · subst hn
    rw [Nat.toDigits_zero]
    rfl
  · obtain ⟨c, cs, hdigits, hc⟩ := head_toDigits (Nat.pos_of_ne_zero hn)
    have hall : ∀ d ∈ Nat.toDigits 10 n, d.isDigit = true := fun d hd =>
      Nat.isDigit_of_mem_toDigits (by decide) (by decide) hd
    have hstop : ∀ d ∈ rest.head?, d.isDigit = false := by
      intro d hd
      have hends := h d hd
      simp only [continuesNumber, Bool.or_eq_false_iff] at hends
      exact hends.1.1.1
    obtain ⟨htake, hdrop⟩ := Rule.takeRun hall hstop
    have hdigit : c.isDigit = true := hall c (by rw [hdigits]; exact List.mem_cons_self)
    rw [hdigits, List.cons_append] at htake hdrop ⊢
    rw [readWhole?]
    · rw [if_pos hdigit, htake, hdrop]
    · exact hc

theorem digitsValue_toDigits (n : Nat) : Decimal.digitsValue (Nat.toDigits 10 n) = n :=
  Nat.ofDigitChars_ten_toDigits

/-- A numeral starts with a digit. -/
theorem exists_toDigits (n : Nat) : ∃ c cs, Nat.toDigits 10 n = c :: cs ∧ c.isDigit = true := by
  cases hdigits : Nat.toDigits 10 n with
  | nil => exact absurd hdigits Nat.toDigits_ne_nil
  | cons c cs =>
    refine ⟨c, cs, rfl, Nat.isDigit_of_mem_toDigits (b := 10) (n := n) (by decide) (by decide) ?_⟩
    rw [hdigits]
    exact List.mem_cons_self

theorem readNumber?_toDigits (n : Nat) (h : Ends rest) :
    readNumber? (Nat.toDigits 10 n ++ rest) = some (.int n, rest) := by
  obtain ⟨c, cs, hdigits, hc⟩ := exists_toDigits n
  have hwhole := readWhole?_toDigits n h
  have hminus : c ≠ '-' := Text.ne_of_apply hc (by decide)
  rw [hdigits, List.cons_append] at hwhole ⊢
  simp [readNumber?, hminus, hwhole, readFraction_of_ends h, readExponent_of_ends h, ← hdigits,
    digitsValue_toDigits]

theorem readNumber?_minus (n : Nat) (h : Ends rest) :
    readNumber? ('-' :: (Nat.toDigits 10 n ++ rest)) = some (.int (-n), rest) := by
  simp [readNumber?, readWhole?_toDigits n h, readFraction_of_ends h, readExponent_of_ends h,
    digitsValue_toDigits]

theorem readNumber?_writeInt (n : Int) (h : Ends rest) :
    readNumber? (writeInt n ++ rest) = some (.int n, rest) := by
  cases n with
  | ofNat n => exact readNumber?_toDigits n h
  | negSucc n => exact readNumber?_minus (n + 1) h

/-- An integer is written with digits and a minus sign. -/
theorem mem_writeInt {n : Int} {c : Char} (h : c ∈ writeInt n) : c.isDigit = true ∨ c = '-' := by
  cases n with
  | ofNat n => exact Or.inl (Nat.isDigit_of_mem_toDigits (by decide) (by decide) h)
  | negSucc n =>
    rcases List.mem_cons.mp h with rfl | h
    · exact Or.inr rfl
    · exact Or.inl (Nat.isDigit_of_mem_toDigits (by decide) (by decide) h)

theorem ne_of_mem_writeInt {n : Int} {c d : Char} (h : c ∈ writeInt n) (hd : d.isDigit = false)
    (hminus : d ≠ '-') : c ≠ d := by
  rcases mem_writeInt h with hdigit | rfl
  · exact Text.ne_of_apply hdigit hd
  · exact Ne.symm hminus

theorem head_writeInt (n : Int) : ∃ c cs, writeInt n = c :: cs ∧ c ∈ writeInt n := by
  have hne : writeInt n ≠ [] := by
    cases n with
    | ofNat n => exact Nat.toDigits_ne_nil
    | negSucc n => simp [writeInt]
  obtain ⟨c, cs, hwritten⟩ := List.exists_cons_of_ne_nil hne
  refine ⟨c, cs, hwritten, ?_⟩
  rw [hwritten]
  exact List.mem_cons_self

theorem after?_of_ne {w c : Char} (h : c ≠ w) (word cs : List Char) :
    after? (w :: word) (c :: cs) = none :=
  if_neg (Ne.symm h)

/-- No word stands where an integer does. -/
theorem readWord?_writeInt (n : Int) (rest : List Char) :
    readWord? (writeInt n ++ rest) = none := by
  cases n with
  | ofNat n =>
    obtain ⟨c, cs, hdigits, hc⟩ := exists_toDigits n
    have hne {d : Char} (hd : d.isDigit = false) : c ≠ d := Text.ne_of_apply hc hd
    change readWord? (Nat.toDigits 10 n ++ rest) = none
    rw [hdigits]
    simp [readWord?, words, after?_of_ne, hne]
  | negSucc n =>
    obtain ⟨c, cs, hdigits, hc⟩ := exists_toDigits (n + 1)
    have hne : c ≠ 'I' := Text.ne_of_apply hc (by decide)
    change readWord? ('-' :: (Nat.toDigits 10 (n + 1) ++ rest)) = none
    rw [hdigits]
    simp [readWord?, words, after?, Ne.symm hne]

end Numbers

section Nesting

variable {α β : Type} {room m n : Nat}

/-- The result when there is room for it. -/
def within (room depth : Nat) (a : α) : Except ReadError α :=
  if depth ≤ room then .ok a else .error .tooDeep

theorem within_zero (a : α) : within room 0 a = .ok a :=
  if_pos (Nat.zero_le room)

theorem within_bind (a : α) (f : α → Except ReadError β) :
    (within room m a >>= f) = if m ≤ room then f a else .error .tooDeep := by
  by_cases h : m ≤ room
  · rw [within, if_pos h, if_pos h]
    rfl
  · rw [within, if_neg h, if_neg h]
    rfl

/-- One after the other takes room for the deeper one. -/
theorem within_then (a : α) :
    (if m ≤ room then within room n a else .error .tooDeep) = within room (max m n) a := by
  by_cases h : m ≤ room
  · simp only [within, h, if_true, Nat.max_le, true_and]
  · simp only [within, h, if_false, Nat.max_le, false_and]

theorem orMalformed_some_bind (a : α) (f : α → Except ReadError β) :
    (ReadError.orMalformed (some a) >>= f) = f a := rfl

/-- An empty container takes room for itself. -/
theorem opening_ok (a : α) : (opening room fun _ => .ok a) = within room 1 a := by
  cases room with
  | zero => rfl
  | succ room => exact (if_pos (by omega)).symm

/-- A container takes room for one more than what it contains. -/
theorem opening_within (a : α) :
    (opening room fun room => within room m a) = within room (m + 1) a := by
  cases room with
  | zero => exact (if_neg (by omega)).symm
  | succ room => simp only [opening, within, Nat.add_le_add_iff_right]

end Nesting

section Values

theorem isSpace_lineBreak (pretty : Bool) (level : Nat) :
    ∀ c ∈ lineBreak pretty level, isSpace c = true := by
  cases pretty with
  | false => simp [lineBreak]
  | true =>
    simp only [lineBreak, if_true, List.mem_cons, List.mem_replicate]
    rintro c (rfl | ⟨_, rfl⟩) <;> rfl

/-- In either layout a separator is a comma and blanks. -/
theorem separator_eq (pretty : Bool) (level : Nat) :
    ∃ gap, separator pretty level = ',' :: gap ∧ ∀ c ∈ gap, isSpace c = true := by
  cases pretty with
  | false => exact ⟨[' '], rfl, by simp [isSpace]⟩
  | true => exact ⟨lineBreak true level, rfl, isSpace_lineBreak true level⟩

theorem ends_gap {gap : List Char} (hgap : ∀ c ∈ gap, isSpace c = true) {d : Char}
    (hd : continuesNumber d = false) (rest : List Char) : Ends (gap ++ d :: rest) := by
  cases gap with
  | nil => exact ends_cons hd rest
  | cons c gap =>
    refine ends_cons ?_ _
    have hc := hgap c List.mem_cons_self
    simp only [isSpace, Bool.or_eq_true, beq_iff_eq] at hc
    rcases hc with ((rfl | rfl) | rfl) | rfl <;> rfl

/-- What is written for the value is read back in front of any rest that ends a number, where there
is room for it, in twice as many steps as it has characters. -/
structure ReadsBack (pretty : Bool) (d : Data) : Prop where
  head (level : Nat) : ∃ c cs, write pretty level d = c :: cs ∧ isSpace c = false ∧ c ≠ ']'
  reads (level fuel room : Nat) (rest : List Char) :
    2 * (write pretty level d).length ≤ fuel + 1 → Ends rest →
      readValue fuel room (write pretty level d ++ rest) = within room d.depth (d, rest)

theorem ReadsBack.length_pos {pretty : Bool} {d : Data} (h : ReadsBack pretty d) (level : Nat) :
    0 < (write pretty level d).length := by
  obtain ⟨c, cs, hwrite, _⟩ := h.head level
  rw [hwrite]
  exact Nat.succ_pos _

/-- Blanks in front of a value are skipped. -/
theorem ReadsBack.skipSpace {pretty : Bool} {d : Data} (h : ReadsBack pretty d) (level : Nat)
    {gap : List Char} (hgap : ∀ c ∈ gap, isSpace c = true) (rest : List Char) :
    skipSpace (gap ++ (write pretty level d ++ rest)) = write pretty level d ++ rest := by
  obtain ⟨c, cs, hwrite, hc, _⟩ := h.head level
  rw [skipSpace_append hgap, hwrite, List.cons_append, skipSpace_of_not hc]

/-- A value that is written the same in either layout and at every level. -/
theorem readsBack_of_flat (d : Data) (text : List Char)
    (hwrite : ∀ pretty level, write pretty level d = text)
    (hhead : ∃ c cs, text = c :: cs ∧ isSpace c = false ∧ c ≠ ']')
    (hread : ∀ fuel room rest, Ends rest →
      readValue (fuel + 1) room (text ++ rest) = within room d.depth (d, rest))
    (pretty : Bool) : ReadsBack pretty d := by
  refine ⟨fun level => by rw [hwrite]; exact hhead, fun level fuel room rest hfuel hends => ?_⟩
  obtain ⟨c, cs, htext, _⟩ := hhead
  rw [hwrite] at hfuel ⊢
  cases fuel with
  | zero =>
    rw [htext, List.length_cons] at hfuel
    omega
  | succ fuel => exact hread fuel room rest hends

theorem readsBack_null (pretty : Bool) : ReadsBack pretty .null :=
  readsBack_of_flat .null ['n', 'u', 'l', 'l'] (fun _ _ => by rw [write]; rfl)
    ⟨'n', _, rfl, by decide, by decide⟩ (fun _ _ _ _ => (within_zero _).symm) pretty

theorem readsBack_boolean (b pretty : Bool) : ReadsBack pretty (.boolean b) := by
  cases b with
  | false =>
    exact readsBack_of_flat (.boolean false) ['f', 'a', 'l', 's', 'e']
      (fun _ _ => by rw [write]; rfl) ⟨'f', _, rfl, by decide, by decide⟩
      (fun _ _ _ _ => (within_zero _).symm) pretty
  | true =>
    exact readsBack_of_flat (.boolean true) ['t', 'r', 'u', 'e'] (fun _ _ => by rw [write]; rfl)
      ⟨'t', _, rfl, by decide, by decide⟩
      (fun _ _ _ _ => (within_zero _).symm) pretty

theorem readsBack_int (n : Int) (pretty : Bool) : ReadsBack pretty (.int n) := by
  obtain ⟨c, cs, hwritten, hmem⟩ := head_writeInt n
  have hne {d : Char} (hd : d.isDigit = false) (hminus : d ≠ '-') : c ≠ d :=
    ne_of_mem_writeInt hmem hd hminus
  refine readsBack_of_flat (.int n) (writeInt n) (fun _ _ => by rw [write])
    ⟨c, cs, hwritten, ?_, hne (by decide) (by decide)⟩ (fun fuel room rest hends => ?_) pretty
  · have hblank (d : Char) (hd : d.isDigit = false) (hminus : d ≠ '-') : (c == d) = false :=
      beq_false_of_ne (hne hd hminus)
    simp [isSpace, hblank]
  · have hword := readWord?_writeInt n rest
    have hnumber := readNumber?_writeInt n hends
    rw [hwritten, List.cons_append] at hword hnumber ⊢
    rw [readValue, hword, hnumber]
    · exact (within_zero _).symm
    all_goals exact fun _ heq => hne (by decide) (by decide) (List.cons.inj heq).1

theorem readsBack_text (s : String) (pretty : Bool) : ReadsBack pretty (.text s) := by
  refine readsBack_of_flat (.text s) (writeText s) (fun _ _ => by rw [write])
    ⟨'"', _, rfl, by decide, by decide⟩ (fun fuel room rest _ => ?_) pretty
  have hread := readString?_writeText s rest
  rw [writeText, List.cons_append] at hread ⊢
  rw [readValue, hread]
  exact (within_zero _).symm

variable {pretty : Bool}

/-- Items are read back up to the closing bracket. -/
theorem readItems_write (level fuel room : Nat) {item : Data} {items : List Data}
    (h : ∀ d ∈ item :: items, ReadsBack pretty d) {gap : List Char}
    (hgap : ∀ c ∈ gap, isSpace c = true)
    (hfuel : 2 * (write pretty level item ++ writeItems pretty level items).length ≤ fuel)
    (rest : List Char) :
    readItems fuel room (write pretty level item ++
      (writeItems pretty level items ++ (gap ++ ']' :: rest))) =
      within room (Data.depthOfItems (item :: items)) (item :: items, rest) := by
  induction items generalizing item fuel with
  | nil =>
    have hitem := h item List.mem_cons_self
    have hpos := hitem.length_pos level
    rw [writeItems, List.append_nil] at hfuel
    rw [writeItems, List.nil_append]
    cases fuel with
    | zero => omega
    | succ fuel =>
      have hends : Ends (gap ++ ']' :: rest) := ends_gap hgap (by decide) rest
      rw [readItems, hitem.reads level fuel room _ (by omega) hends, within_bind]
      simp only [skipSpace_append hgap, skipSpace_of_not (c := ']') (by decide)]
      rw [Data.depthOfItems, Data.depthOfItems, Nat.max_zero]
      rfl
  | cons next items ih =>
    have hitem := h item List.mem_cons_self
    have hpos := hitem.length_pos level
    obtain ⟨comma, hcomma, hblank⟩ := separator_eq pretty level
    rw [writeItems, hcomma] at hfuel ⊢
    simp only [List.length_append, List.length_cons] at hfuel
    cases fuel with
    | zero => omega
    | succ fuel =>
      have hnext := ih fuel (fun d hd => h d (List.mem_cons_of_mem item hd))
        (by rw [List.length_append]; omega)
      simp only [List.append_assoc, List.cons_append]
      rw [readItems, hitem.reads level fuel room _ (by omega) (ends_cons (by decide) _),
        within_bind]
      simp only [skipSpace_of_not (c := ',') (by decide)]
      rw [(h next (by simp)).skipSpace level hblank, hnext, within_bind]
      exact within_then (item :: next :: items, rest)

theorem skipSpace_writeText (key : String) {gap : List Char}
    (hgap : ∀ c ∈ gap, isSpace c = true) (rest : List Char) :
    skipSpace (gap ++ (writeText key ++ rest)) = writeText key ++ rest := by
  rw [skipSpace_append hgap, writeText, List.cons_append, skipSpace_of_not (by decide)]

/-- Entries are read back up to the closing brace. -/
theorem readEntries_write (level fuel room : Nat) {key : String} {value : Data}
    {entries : List (String × Data)} (h : ∀ e ∈ (key, value) :: entries, ReadsBack pretty e.2)
    {gap : List Char} (hgap : ∀ c ∈ gap, isSpace c = true)
    (hfuel : 2 * (writeText key ++ [':', ' '] ++ write pretty level value ++
      writeEntries pretty level entries).length ≤ fuel) (rest : List Char) :
    readEntries fuel room (writeText key ++ (':' :: ' ' :: (write pretty level value ++
      (writeEntries pretty level entries ++ (gap ++ '\x7d' :: rest))))) =
      within room (Data.depthOfEntries ((key, value) :: entries))
        ((key, value) :: entries, rest) := by
  have hspace : ∀ c ∈ [' '], isSpace c = true := by simp [isSpace]
  have hpoint (cs : List Char) : skipSpace (':' :: cs) = ':' :: cs :=
    skipSpace_of_not (by decide) cs
  induction entries generalizing key value fuel with
  | nil =>
    have hvalue : ReadsBack pretty value := h _ List.mem_cons_self
    simp only [writeEntries, List.length_append, List.length_cons, List.length_nil] at hfuel
    rw [writeEntries, List.nil_append]
    cases fuel with
    | zero => omega
    | succ fuel =>
      have hends : Ends (gap ++ '\x7d' :: rest) := ends_gap hgap (by decide) rest
      have hskip := hvalue.skipSpace level hspace (gap ++ '\x7d' :: rest)
      rw [List.singleton_append] at hskip
      rw [readEntries, readString?_writeText, orMalformed_some_bind]
      simp only [hpoint]
      rw [hskip, hvalue.reads level fuel room _ (by omega) hends, within_bind]
      simp only [skipSpace_append hgap, skipSpace_of_not (c := '\x7d') (by decide)]
      rw [Data.depthOfEntries, Data.depthOfEntries, Nat.max_zero]
      rfl
  | cons next entries ih =>
    obtain ⟨nextKey, nextValue⟩ := next
    have hvalue : ReadsBack pretty value := h _ List.mem_cons_self
    obtain ⟨comma, hcomma, hblank⟩ := separator_eq pretty level
    rw [writeEntries, hcomma] at hfuel ⊢
    simp only [List.length_append, List.length_cons, List.length_nil] at hfuel
    cases fuel with
    | zero => omega
    | succ fuel =>
      have hnext := ih fuel (fun e he => h e (List.mem_cons_of_mem _ he))
        (by simp only [List.length_append, List.length_cons, List.length_nil]; omega)
      simp only [List.append_assoc, List.cons_append, List.nil_append]
      have hskip (cs : List Char) := hvalue.skipSpace level hspace cs
      simp only [List.singleton_append] at hskip
      rw [readEntries, readString?_writeText, orMalformed_some_bind]
      simp only [hpoint]
      rw [hskip, hvalue.reads level fuel room _ (by omega) (ends_cons (by decide) _), within_bind]
      simp only [skipSpace_of_not (c := ',') (by decide)]
      rw [skipSpace_writeText nextKey hblank, hnext, within_bind]
      exact within_then ((key, value) :: (nextKey, nextValue) :: entries, rest)

theorem readsBack_list {items : List Data} (h : ∀ d ∈ items, ReadsBack pretty d) :
    ReadsBack pretty (.list items) := by
  cases items with
  | nil =>
    exact readsBack_of_flat (.list []) ['[', ']'] (fun _ _ => by rw [write])
      ⟨'[', _, rfl, by decide, by decide⟩ (fun _ _ _ _ => opening_ok _) pretty
  | cons item items =>
    refine ⟨fun level => ⟨'[', _, by rw [write], by decide, by decide⟩, ?_⟩
    intro level fuel room rest hfuel _
    have hitem := h item List.mem_cons_self
    obtain ⟨c, cs, hwrite, _, hc⟩ := hitem.head (level + 1)
    rw [write] at hfuel ⊢
    simp only [List.length_append, List.length_cons, List.length_nil] at hfuel
    simp only [List.cons_append, List.append_assoc, List.nil_append]
    cases fuel with
    | zero => omega
    | succ fuel =>
      have hitems (room : Nat) := readItems_write (level + 1) fuel room h
        (isSpace_lineBreak pretty level) (by rw [List.length_append]; omega) rest
      rw [readValue, hitem.skipSpace (level + 1) (isSpace_lineBreak pretty (level + 1)),
        Data.depth, ← opening_within]
      rw [hwrite, List.cons_append] at hitems ⊢
      congr 1
      funext room
      split
      · rename_i heq
        exact absurd (List.cons.inj heq).1 hc
      · rw [hitems, within_bind]
        rfl

theorem readsBack_map {entries : List (String × Data)} (hnodup : (entries.map Prod.fst).Nodup)
    (h : ∀ e ∈ entries, ReadsBack pretty e.2) : ReadsBack pretty (.map entries) := by
  cases entries with
  | nil =>
    exact readsBack_of_flat (.map []) ['\x7b', '\x7d'] (fun _ _ => by rw [write])
      ⟨'\x7b', _, rfl, by decide, by decide⟩ (fun _ _ _ _ => opening_ok _) pretty
  | cons entry entries =>
    obtain ⟨key, value⟩ := entry
    refine ⟨fun level => ⟨'\x7b', _, by rw [write], by decide, by decide⟩, ?_⟩
    intro level fuel room rest hfuel _
    rw [write] at hfuel ⊢
    simp only [List.length_append, List.length_cons, List.length_nil] at hfuel
    simp only [List.cons_append, List.append_assoc, List.nil_append]
    cases fuel with
    | zero => omega
    | succ fuel =>
      have hentries (room : Nat) := readEntries_write (level + 1) fuel room h
        (isSpace_lineBreak pretty level)
        (by simp only [List.length_append, List.length_cons, List.length_nil]; omega) rest
      rw [readValue, skipSpace_writeText key (isSpace_lineBreak pretty (level + 1)),
        Data.depth, ← opening_within]
      rw [writeText, List.cons_append] at hentries ⊢
      congr 1
      funext room
      split
      · rename_i heq
        exact absurd (List.cons.inj heq).1 (by decide)
      · rw [hentries, within_bind]
        simp only [Data.ofPairs_eq_map hnodup]
        rfl

/-- Every value without floats is read back: by induction on how it is built. -/
theorem readsBack {words : String → Prop} {d : Data} (h : d.Over words) (pretty : Bool) :
    ReadsBack pretty d := by
  induction h with
  | null => exact readsBack_null pretty
  | boolean b => exact readsBack_boolean b pretty
  | int n => exact readsBack_int n pretty
  | @text s _ => exact readsBack_text s pretty
  | list _ ih => exact readsBack_list ih
  | map hnodup _ _ ih => exact readsBack_map hnodup ih

end Values

end ClassScript.Json

namespace ClassScript

namespace Format

variable {words : String → Prop} {d : Data} (h : d.Over words) {nesting : Nat} (pretty : Bool)

include h

end Format

/-- The empty list inside so many lists. -/
def Data.nested : Nat → Data
  | 0 => .list []
  | n + 1 => .list [nested n]

end ClassScript
