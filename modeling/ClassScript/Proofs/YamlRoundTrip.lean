import ClassScript.Proofs.YamlScalars
import ClassScript.Data.Format

/-!
# YAML class graphs are read back

Lines of the block style are read back to the value that they were written for. A value is cut out
of the lines around it by their first two characters: a line of an item starts with a dash or is
moved in, and a line that starts an entry does neither. So the lines that belong to an item or an
entry are a run, and the run ends where the next one starts.

The reader is given two steps more than its text has characters. A value uses up two steps, one for
itself and one for its items or entries, and each of these costs at least two characters.

Any text on one line may occur, so in particular every name that a program can declare.
-/

namespace ClassScript.Yaml

/-- The text of lines, each of which ends with a feed. -/
def joined (ls : List (List Char)) : List Char :=
  ls.flatMap (· ++ ['\n'])

section Layout

@[simp] theorem joined_cons (line : List Char) (ls : List (List Char)) :
    joined (line :: ls) = line ++ '\n' :: joined ls := by
  simp [joined]

@[simp] theorem joined_append (ls rest : List (List Char)) :
    joined (ls ++ rest) = joined ls ++ joined rest :=
  List.flatMap_append

theorem length_joined_indent (ls : List (List Char)) :
    (joined ls).length ≤ (joined (ls.map indent)).length := by
  induction ls with
  | nil => exact Nat.le_refl 0
  | cons line ls ih =>
    simp only [List.map_cons, joined_cons, indent, List.length_append, List.length_cons]
    omega

theorem drop_indent (ls : List (List Char)) : (ls.map indent).map (List.drop 2) = ls := by
  induction ls with
  | nil => rfl
  | cons line ls ih => rw [List.map_cons, List.map_cons, ih]; rfl

theorem isIndented_indent (ls : List (List Char)) :
    ∀ line ∈ ls.map indent, isIndented line = true := by
  intro line h
  obtain ⟨l, _, rfl⟩ := List.mem_map.mp h
  rfl

/-- Every value takes a line. -/
theorem lines_ne_nil : (d : Data) → lines d ≠ []
  | .list (item :: rest) => by
    obtain ⟨line, ls, hlines⟩ := List.exists_cons_of_ne_nil (lines_ne_nil item)
    rw [lines, itemLines, hlines]
    simp [dash]
  | .map (entry :: rest) => by
    obtain ⟨key, value⟩ := entry
    rw [lines, entryLines.eq_def]
    simp only
    split <;> simp
  | .list [] | .map [] | .null | .boolean _ | .int _ | .float _ | .text _ => by simp [lines]

/-- The first line of a list starts with a dash. -/
theorem exists_itemLines (item : Data) (items : List Data) :
    ∃ line ls, itemLines (item :: items) = ('-' :: ' ' :: line) :: ls := by
  obtain ⟨line, ls, hlines⟩ := List.exists_cons_of_ne_nil (lines_ne_nil item)
  rw [itemLines, hlines]
  exact ⟨line, _, rfl⟩

/-- The lines of a list all start with a dash or are moved in. -/
theorem belongs_of_mem_itemLines {items : List Data} {line : List Char}
    (h : line ∈ itemLines items) : (isIndented line || isDashed line) = true := by
  induction items with
  | nil => cases h
  | cons item items ih =>
    rw [itemLines] at h
    rcases List.mem_append.mp h with h | h
    · obtain ⟨first, ls, hlines⟩ := List.exists_cons_of_ne_nil (lines_ne_nil item)
      rw [hlines, dash] at h
      rcases List.mem_cons.mp h with rfl | h
      · rfl
      · rw [isIndented_indent ls line h, Bool.true_or]
    · exact ih h

/-- The lines of the entries are those of each entry in turn. -/
theorem entryLines_cons (key : String) (value : Data) (entries : List (String × Data)) :
    entryLines ((key, value) :: entries) = entryLines [(key, value)] ++ entryLines entries := by
  rw [entryLines.eq_def, entryLines.eq_def [(key, value)]]
  simp [entryLines]

section Scalar

variable {d : Data} {line : List Char} (h : IsScalar d line)

include h

theorem IsScalar.not_list (item : Data) (items : List Data) : d ≠ .list (item :: items) := by
  rintro rfl
  cases h.written

theorem IsScalar.not_map (entry : String × Data) (entries : List (String × Data)) :
    d ≠ .map (entry :: entries) := by
  rintro rfl
  cases h.written

theorem IsScalar.lines_eq : lines d = [line] := by
  rw [lines, h.written]
  · rfl
  · exact h.not_list
  · exact h.not_map

theorem IsScalar.entryLines_eq (key : String) :
    entryLines [(key, d)] = [writeText key ++ ':' :: ' ' :: line] := by
  rw [entryLines, h.written]
  · simp [entryLines]
  · exact h.not_list
  · exact h.not_map

end Scalar

/-- Induction on how data is written: on one line, or as items or entries. -/
@[elab_as_elim]
theorem over_induction {motive : Data → Prop}
    (scalar : ∀ d line, IsScalar d line → motive d)
    (list : ∀ item items, (∀ d ∈ item :: items, motive d) → motive (.list (item :: items)))
    (map : ∀ entry entries, ((entry :: entries).map Prod.fst).Nodup →
      (∀ e ∈ entry :: entries, OneLine e.1) → (∀ e ∈ entry :: entries, e.2.Over OneLine) →
      (∀ e ∈ entry :: entries, motive e.2) → motive (.map (entry :: entries)))
    {d : Data} (h : d.Over OneLine) : motive d := by
  induction h with
  | null => exact scalar _ _ isScalar_null
  | boolean b => exact scalar _ _ (isScalar_boolean b)
  | int n => exact scalar _ _ (isScalar_int n)
  | text hs => exact scalar _ _ (isScalar_text hs)
  | @list items _ ih =>
    cases items with
    | nil => exact scalar _ _ isScalar_list
    | cons item items => exact list item items ih
  | @map entries hnodup hkeys hover ih =>
    cases entries with
    | nil => exact scalar _ _ isScalar_map
    | cons entry entries => exact map entry entries hnodup hkeys hover ih

/-- An entry is written on one line, or its key has a line of its own, and below it stand the lines
of its value, those of a map moved in. -/
theorem entryLines_cases {value : Data} (h : value.Over OneLine) (key : String) :
    (∃ line, IsScalar value line ∧
      entryLines [(key, value)] = [writeText key ++ ':' :: ' ' :: line]) ∨
    (∃ item items, value = .list (item :: items) ∧
      entryLines [(key, value)] = (writeText key ++ [':']) :: lines value) ∨
    ∃ entry entries, value = .map (entry :: entries) ∧
      entryLines [(key, value)] = (writeText key ++ [':']) :: (lines value).map indent := by
  refine over_induction ?scalar ?list ?map h
  case scalar =>
    intro d line hscalar
    exact Or.inl ⟨line, hscalar, hscalar.entryLines_eq key⟩
  case list =>
    intro item items _
    exact Or.inr (Or.inl ⟨item, items, rfl, by simp [entryLines, lines]⟩)
  case map =>
    intro entry entries _ _ _ _
    exact Or.inr (Or.inr ⟨entry, entries, rfl, by simp [entryLines, lines]⟩)

theorem splitKey?_alone (key : String) : splitKey? (writeText key ++ [':']) = some (key, []) :=
  splitKey?_writeText key [':'] (by simp)

theorem splitKey?_inline (key : String) (line : List Char) :
    splitKey? (writeText key ++ ':' :: ' ' :: line) = some (key, line) :=
  splitKey?_writeText key (':' :: ' ' :: line) (by simp)

/-- The first line of an entry has a key and belongs to nothing above it. -/
theorem exists_entryLines {value : Data} (h : value.Over OneLine) (key : String) :
    ∃ line ls, entryLines [(key, value)] = line :: ls ∧ Unmarked line ∧
      (splitKey? line).isSome = true := by
  rcases entryLines_cases h key with ⟨line, _, heq⟩ | ⟨_, _, _, heq⟩ | ⟨_, _, _, heq⟩
  · exact ⟨_, _, heq, unmarked_writeText key _, by rw [splitKey?_inline]; rfl⟩
  · exact ⟨_, _, heq, unmarked_writeText key _, by rw [splitKey?_alone]; rfl⟩
  · exact ⟨_, _, heq, unmarked_writeText key _, by rw [splitKey?_alone]; rfl⟩

end Layout

section Reading

/-- The lines of the value are read back within two steps more than they have characters. -/
def ReadsBack (d : Data) : Prop :=
  ∀ fuel, (joined (lines d)).length + 2 ≤ fuel → readLines fuel (lines d) = some d

theorem IsScalar.readsBack {d : Data} {line : List Char} (h : IsScalar d line) : ReadsBack d := by
  intro fuel hfuel
  rw [h.lines_eq]
  cases fuel with
  | zero => omega
  | succ fuel => simp [readLines, h.unmarked.not_dashed, h.keyless, h.read]

/-- An item is read from its own lines, and the other items from the lines after them. -/
theorem readItems_dash (line : List Char) (ls : List (List Char)) {others : List (List Char)}
    (hothers : ∀ l ∈ others.head?, isIndented l = false) (fuel : Nat) :
    readItems (fuel + 1) (dash (line :: ls) ++ others) =
      (readLines fuel (line :: ls)).bind fun item =>
        (readItems fuel others).map (item :: ·) := by
  obtain ⟨htake, hdrop⟩ := Rule.takeRun (isIndented_indent ls) hothers
  have hown : (('-' :: ' ' :: line) :: ls.map indent).map (List.drop 2) = line :: ls := by
    rw [List.map_cons, drop_indent]
    rfl
  have hdashed : isDashed ('-' :: ' ' :: line) = true := rfl
  rw [dash, List.cons_append, readItems, if_pos hdashed, htake, hdrop]
  simp only [hown]
  cases readLines fuel (line :: ls) with
  | none => rfl
  | some item => cases readItems fuel others <;> rfl

theorem readItems_itemLines {items : List Data} (h : ∀ d ∈ items, ReadsBack d) (fuel : Nat)
    (hfuel : (joined (itemLines items)).length + 1 ≤ fuel) :
    readItems fuel (itemLines items) = some items := by
  induction items generalizing fuel with
  | nil =>
    cases fuel with
    | zero => omega
    | succ fuel => rfl
  | cons item items ih =>
    -- the next item starts with a dash, and the run of lines that are moved in ends there
    have hothers : ∀ l ∈ (itemLines items).head?, isIndented l = false := by
      cases items with
      | nil => simp [itemLines]
      | cons next items =>
        obtain ⟨line, ls, heq⟩ := exists_itemLines next items
        rw [heq, List.head?_cons]
        rintro l ⟨⟩
        rfl
    cases fuel with
    | zero => omega
    | succ fuel =>
      obtain ⟨line, ls, hlines⟩ := List.exists_cons_of_ne_nil (lines_ne_nil item)
      have hindent := length_joined_indent ls
      have hitem := h item List.mem_cons_self fuel
      have hitems := ih (fun d hd => h d (List.mem_cons_of_mem item hd)) fuel
      rw [hlines] at hitem
      rw [itemLines, hlines] at hfuel ⊢
      simp only [dash, List.cons_append, joined_cons, joined_append, List.length_append,
        List.length_cons] at hfuel hitem
      rw [readItems_dash line ls hothers, hitem (by omega), hitems (by omega)]
      rfl

/-- The value of an entry, from what stands on the line of its key or from the lines below that
belong to it. -/
def readValue? (fuel : Nat) (inline : List Char) (own : List (List Char)) : Option Data :=
  if own.isEmpty then readInline? inline
  else if !inline.isEmpty then none
  else if own.all isIndented then readLines fuel (own.map (List.drop 2))
  else readLines fuel own

/-- An entry is read from the line of its key and the lines that belong to it, and the other entries
from the lines after them. -/
theorem readEntries_key {key : String} {line inline : List Char} {own others : List (List Char)}
    (hkey : splitKey? line = some (key, inline))
    (hown : ∀ l ∈ own, (isIndented l || isDashed l) = true)
    (hothers : ∀ l ∈ others.head?, (isIndented l || isDashed l) = false) (fuel : Nat) :
    readEntries (fuel + 1) (line :: (own ++ others)) =
      (readValue? fuel inline own).bind fun value =>
        (readEntries fuel others).map ((key, value) :: ·) := by
  obtain ⟨htake, hdrop⟩ := Rule.takeRun hown hothers
  have hmap (value : Data) : ((readEntries fuel others).bind fun entries =>
      pure ((key, value) :: entries)) = (readEntries fuel others).map ((key, value) :: ·) := by
    cases readEntries fuel others <;> rfl
  rw [readEntries, hkey, readValue?]
  simp only [Option.bind_eq_bind, Option.bind_some, htake, hdrop, hmap]
  split
  · rfl
  · split
    · rfl
    · split <;> rfl

/-- The lines of a list stand below its key as they are: the first of them starts with a dash. -/
theorem readValue?_below {item : Data} {items : List Data} (h : ReadsBack (.list (item :: items)))
    {fuel : Nat} (hfuel : (joined (lines (.list (item :: items)))).length + 2 ≤ fuel) :
    readValue? fuel [] (lines (.list (item :: items))) = some (.list (item :: items)) := by
  obtain ⟨line, ls, heq⟩ := exists_itemLines item items
  have hback := h fuel hfuel
  rw [lines, heq] at hback ⊢
  simpa [readValue?, isIndented] using hback

/-- Lines that are all moved in are read without their first two columns. -/
theorem readValue?_moved {d : Data} (h : ReadsBack d) {fuel : Nat}
    (hfuel : (joined (lines d)).length + 2 ≤ fuel) :
    readValue? fuel [] ((lines d).map indent) = some d := by
  have hall := List.all_eq_true.mpr (isIndented_indent (lines d))
  have hback := h fuel hfuel
  simp only [readValue?, hall, drop_indent, hback]
  simp [lines_ne_nil]

/-- An entry in front of others is read back. -/
theorem readEntries_cons {key : String} {value : Data} (h : value.Over OneLine)
    (hback : ReadsBack value) {others : List (List Char)}
    (hothers : ∀ l ∈ others.head?, (isIndented l || isDashed l) = false) (fuel : Nat)
    (hfuel : (joined (entryLines [(key, value)])).length ≤ fuel) :
    readEntries (fuel + 1) (entryLines [(key, value)] ++ others) =
      (readEntries fuel others).map ((key, value) :: ·) := by
  rcases entryLines_cases h key with ⟨line, hscalar, heq⟩ | ⟨item, items, rfl, heq⟩ |
    ⟨entry, entries, rfl, heq⟩
  · have hvalue : readValue? fuel line [] = some value := hscalar.read
    rw [heq, List.singleton_append, ← List.nil_append others,
      readEntries_key (splitKey?_inline key line) (by simp) hothers, hvalue]
    rfl
  · have hown : ∀ l ∈ lines (.list (item :: items)), (isIndented l || isDashed l) = true := by
      intro l hl
      rw [lines] at hl
      exact belongs_of_mem_itemLines hl
    rw [heq] at hfuel ⊢
    simp only [joined_cons, List.length_append, List.length_cons] at hfuel
    rw [List.cons_append, readEntries_key (splitKey?_alone key) hown hothers,
      readValue?_below hback (by omega)]
    rfl
  · have hown : ∀ l ∈ (lines (.map (entry :: entries))).map indent,
        (isIndented l || isDashed l) = true := by
      intro l hl
      rw [isIndented_indent _ l hl, Bool.true_or]
    have hindent := length_joined_indent (lines (.map (entry :: entries)))
    rw [heq] at hfuel ⊢
    simp only [joined_cons, List.length_append, List.length_cons, List.length_nil] at hfuel
    rw [List.cons_append, readEntries_key (splitKey?_alone key) hown hothers,
      readValue?_moved hback (by omega)]
    rfl

/-- No line that starts an entry belongs to the one before it. -/
theorem not_belongs_head_entryLines {entries : List (String × Data)}
    (h : ∀ e ∈ entries, e.2.Over OneLine) :
    ∀ l ∈ (entryLines entries).head?, (isIndented l || isDashed l) = false := by
  cases entries with
  | nil => simp [entryLines]
  | cons entry entries =>
    obtain ⟨key, value⟩ := entry
    obtain ⟨line, ls, heq, hunmarked, _⟩ := exists_entryLines (h _ List.mem_cons_self) key
    rw [entryLines_cons, heq, List.cons_append, List.head?_cons]
    rintro l ⟨⟩
    rw [hunmarked.not_indented, hunmarked.not_dashed]
    rfl

theorem readEntries_entryLines {entries : List (String × Data)}
    (hover : ∀ e ∈ entries, e.2.Over OneLine) (h : ∀ e ∈ entries, ReadsBack e.2) (fuel : Nat)
    (hfuel : (joined (entryLines entries)).length + 1 ≤ fuel) :
    readEntries fuel (entryLines entries) = some entries := by
  induction entries generalizing fuel with
  | nil =>
    cases fuel with
    | zero => omega
    | succ fuel => rfl
  | cons entry entries ih =>
    obtain ⟨key, value⟩ := entry
    have hvalue : value.Over OneLine := hover _ List.mem_cons_self
    have hback : ReadsBack value := h _ List.mem_cons_self
    have hover' : ∀ e ∈ entries, e.2.Over OneLine := fun e he => hover e (List.mem_cons_of_mem _ he)
    cases fuel with
    | zero => omega
    | succ fuel =>
      have hentries := ih hover' (fun e he => h e (List.mem_cons_of_mem _ he)) fuel
      have hpos : 0 < (joined (entryLines [(key, value)])).length := by
        obtain ⟨line, ls, heq, _⟩ := exists_entryLines hvalue key
        rw [heq, joined_cons, List.length_append, List.length_cons]
        omega
      rw [entryLines_cons] at hfuel ⊢
      rw [joined_append, List.length_append] at hfuel
      rw [readEntries_cons hvalue hback (not_belongs_head_entryLines hover') fuel (by omega),
        hentries (by omega)]
      rfl

theorem readsBack_list {item : Data} {items : List Data}
    (h : ∀ d ∈ item :: items, ReadsBack d) : ReadsBack (.list (item :: items)) := by
  intro fuel hfuel
  obtain ⟨line, ls, heq⟩ := exists_itemLines item items
  have hdashed : isDashed ('-' :: ' ' :: line) = true := rfl
  rw [lines] at hfuel ⊢
  cases fuel with
  | zero => omega
  | succ fuel =>
    have hitems := readItems_itemLines h fuel (by omega)
    rw [heq] at hitems ⊢
    simp [readLines, hdashed, hitems]

theorem readsBack_map {entry : String × Data} {entries : List (String × Data)}
    (hnodup : ((entry :: entries).map Prod.fst).Nodup)
    (hover : ∀ e ∈ entry :: entries, e.2.Over OneLine)
    (h : ∀ e ∈ entry :: entries, ReadsBack e.2) : ReadsBack (.map (entry :: entries)) := by
  intro fuel hfuel
  obtain ⟨key, value⟩ := entry
  have hvalue : value.Over OneLine := hover _ List.mem_cons_self
  obtain ⟨line, ls, heq, hunmarked, hkey⟩ := exists_entryLines hvalue key
  rw [lines] at hfuel ⊢
  cases fuel with
  | zero => omega
  | succ fuel =>
    have hentries := readEntries_entryLines hover h fuel (by omega)
    rw [entryLines_cons, heq, List.cons_append] at hentries ⊢
    rw [readLines, if_neg (by simp [hunmarked.not_dashed]), if_pos hkey, hentries,
      Option.map_some, Data.ofPairs_eq_map hnodup]

theorem readsBack {d : Data} (h : d.Over OneLine) : ReadsBack d := by
  refine over_induction ?scalar ?list ?map h
  case scalar =>
    intro d line hscalar
    exact hscalar.readsBack
  case list =>
    intro item items ih
    exact readsBack_list ih
  case map =>
    intro entry entries hnodup _ hover ih
    exact readsBack_map hnodup hover ih

end Reading

section Documents

/-- A line that is cut out of a text as it is and is not the mark of its end. -/
structure Tame (line : List Char) : Prop where
  no_feed : '\n' ∉ line
  unmarked : line.head? ≠ some '.'

theorem tame_indent {line : List Char} (h : '\n' ∉ line) : Tame (indent line) := by
  constructor
  · simpa [indent] using h
  · simp [indent]

theorem tame_dash {ls : List (List Char)} (h : ∀ l ∈ ls, Tame l) : ∀ l ∈ dash ls, Tame l := by
  cases ls with
  | nil => simp [dash]
  | cons line ls =>
    intro l hl
    rcases List.mem_cons.mp hl with rfl | hl
    · have hfeed := (h line List.mem_cons_self).no_feed
      exact ⟨by simpa using hfeed, by simp⟩
    · obtain ⟨l, hmem, rfl⟩ := List.mem_map.mp hl
      exact tame_indent (h l (List.mem_cons_of_mem line hmem)).no_feed

theorem tame_itemLines {items : List Data} (h : ∀ d ∈ items, ∀ l ∈ lines d, Tame l) :
    ∀ l ∈ itemLines items, Tame l := by
  induction items with
  | nil => simp [itemLines]
  | cons item items ih =>
    intro l hl
    rw [itemLines] at hl
    rcases List.mem_append.mp hl with hl | hl
    · exact tame_dash (h item List.mem_cons_self) l hl
    · exact ih (fun d hd => h d (List.mem_cons_of_mem item hd)) l hl

theorem tame_key {key : String} (h : OneLine key) {after : List Char} (hafter : '\n' ∉ after) :
    Tame (writeText key ++ ':' :: after) := by
  constructor
  · simpa using ⟨newline_not_mem_writeText h, hafter⟩
  · exact (unmarked_writeText key _).head_ne

theorem tame_entry {key : String} {value : Data} (hkey : OneLine key) (h : value.Over OneLine)
    (hlines : ∀ l ∈ lines value, Tame l) : ∀ l ∈ entryLines [(key, value)], Tame l := by
  rcases entryLines_cases h key with ⟨line, hscalar, heq⟩ | ⟨_, _, _, heq⟩ | ⟨_, _, _, heq⟩
  · rw [heq, List.forall_mem_singleton]
    exact tame_key hkey (by simpa using hscalar.no_feed)
  · rw [heq, List.forall_mem_cons]
    exact ⟨tame_key hkey (by simp), hlines⟩
  · rw [heq, List.forall_mem_cons]
    refine ⟨tame_key hkey (by simp), fun l hl => ?_⟩
    obtain ⟨l, hmem, rfl⟩ := List.mem_map.mp hl
    exact tame_indent (hlines l hmem).no_feed

theorem tame_entryLines {entries : List (String × Data)} (hkeys : ∀ e ∈ entries, OneLine e.1)
    (hover : ∀ e ∈ entries, e.2.Over OneLine) (h : ∀ e ∈ entries, ∀ l ∈ lines e.2, Tame l) :
    ∀ l ∈ entryLines entries, Tame l := by
  induction entries with
  | nil => simp [entryLines]
  | cons entry entries ih =>
    rw [List.forall_mem_cons] at hkeys hover h
    intro l hl
    rw [entryLines_cons] at hl
    rcases List.mem_append.mp hl with hl | hl
    · exact tame_entry hkeys.1 hover.1 h.1 l hl
    · exact ih hkeys.2 hover.2 h.2 l hl

theorem tame_lines {d : Data} (h : d.Over OneLine) : ∀ l ∈ lines d, Tame l := by
  refine over_induction ?scalar ?list ?map h
  case scalar =>
    intro d line hscalar
    rw [hscalar.lines_eq, List.forall_mem_singleton]
    exact ⟨hscalar.no_feed, hscalar.unmarked.head_ne⟩
  case list =>
    intro item items ih
    rw [lines]
    exact tame_itemLines ih
  case map =>
    intro entry entries _ hkeys hover ih
    rw [lines]
    exact tame_entryLines hkeys hover ih

theorem splitAtFeeds_line {line : List Char} (h : '\n' ∉ line) (front rest : List Char) :
    splitAtFeeds front (line ++ '\n' :: rest) =
      (front.reverse ++ line) :: splitAtFeeds [] rest := by
  induction line generalizing front with
  | nil => simp [splitAtFeeds]
  | cons c cs ih =>
    rw [List.mem_cons, not_or] at h
    have hc : (c == '\n') = false := beq_false_of_ne (Ne.symm h.1)
    rw [List.cons_append, splitAtFeeds, hc, if_neg (by decide), ih h.2]
    simp

/-- Lines are cut out of a text as they were joined. -/
theorem splitAtFeeds_joined {ls : List (List Char)} (h : ∀ l ∈ ls, '\n' ∉ l) :
    splitAtFeeds [] (joined ls) = ls := by
  induction ls with
  | nil => rfl
  | cons line ls ih =>
    rw [List.forall_mem_cons] at h
    rw [joined_cons, splitAtFeeds_line h.1, ih h.2]
    rfl

/-- The text is the joined lines, with the mark of the end on a line of its own. -/
theorem toList_render (d : Data) :
    (render d).toList = joined (lines d ++ if isOpenEnded d then ["...".toList] else []) := by
  rw [render, String.toList_ofList, joined_append]
  split <;> rfl

/-- Nothing but the mark of the end is dropped from the lines. -/
theorem filter_lines {d : Data} (h : d.Over OneLine) :
    (lines d ++ if isOpenEnded d then ["...".toList] else []).filter (fun l => l != "...".toList) =
      lines d := by
  have hkept : (lines d).filter (fun l => l != "...".toList) = lines d := by
    refine List.filter_eq_self.mpr fun l hl => ?_
    rw [bne_iff_ne]
    rintro rfl
    exact (tame_lines h _ hl).unmarked rfl
  rw [List.filter_append, hkept]
  split <;> simp

theorem parse?_render {d : Data} (h : d.Over OneLine) : parse? (render d) = some d := by
  have hfeed : ∀ l ∈ lines d ++ if isOpenEnded d then ["...".toList] else [], '\n' ∉ l := by
    intro l hl
    rcases List.mem_append.mp hl with hl | hl
    · exact (tame_lines h l hl).no_feed
    · split at hl
      · rw [List.mem_singleton.mp hl]
        decide
      · cases hl
  have hlength : (joined (lines d)).length ≤ (render d).length := by
    rw [← String.length_toList, toList_render, joined_append, List.length_append]
    omega
  rw [parse?, toList_render, splitAtFeeds_joined hfeed, filter_lines h]
  exact readsBack h _ (by omega)

end Documents

end ClassScript.Yaml

namespace ClassScript

/-- A name that a program can give to a class, a member, a parameter or an interface. Words with a
meaning of their own count as names here, whether or not a declaration takes them. -/
def IsIdentifier (s : String) : Prop :=
  s.toList ≠ [] ∧ Rule.identifier s.toList = s.toList.length

instance (s : String) : Decidable (IsIdentifier s) :=
  inferInstanceAs (Decidable (_ ∧ _))

theorem IsIdentifier.oneLine {s : String} (h : IsIdentifier s) : Yaml.OneLine s := by
  obtain ⟨hne, hlength⟩ := h
  have hpos : 0 < s.toList.length := List.length_pos_iff.mpr hne
  have hword : Rule.identifier s.toList = (Rule.word s.toList).length :=
    Rule.identifier_eq_length (by omega)
  have hall : Rule.word s.toList = s.toList :=
    (List.takeWhile_sublist Text.isWordChar).eq_of_length (by rw [← hlength, hword]; rfl)
  intro hfeed
  rw [← hall] at hfeed
  have hchar : Text.isWordChar '\n' = true := List.all_eq_true.mp List.all_takeWhile _ hfeed
  exact absurd hchar (by decide)

/-- The class graph of a table is read back from its YAML text, whatever its classes are called and
however many there are, with whatever interfaces, members and parameters. -/
theorem yaml_class_graph_round_trip (t : ClassTable) (h : ∀ x ∈ t.names, IsIdentifier x)
    (pretty : Bool) :
    Format.yaml.deserialize (Format.yaml.serialize pretty t.graph) = .ok t.graph := by
  have hfixed : ∀ x ∈ graphWords, Yaml.OneLine x := by
    unfold Yaml.OneLine
    decide
  have hover := t.over_graph hfixed fun x hx => (h x hx).oneLine
  rw [Format.serialize, Format.deserialize, Format.deserializeWithin]
  simp only [Yaml.parse?_render hover]

/-- Two classes whose names, members, parameters and interfaces are words that stand for something
else in YAML; the first has neither a base nor interfaces, and one of its methods no parameters. -/
def wordTable : ClassTable :=
  ⟨#[.ofMembers "yes" none []
      [.field "null" .publicAccess none 1, .method "NO" .privateAccess [] ⟨[], 2⟩ true false 2,
        .method "Off" .protectedAccess ["on", "true", "x_1"] ⟨[], 3⟩ false true 3],
     .ofMembers "Null" (some 0) ["False", "_"] []], {}, {}⟩

theorem yaml_class_graph_round_trip_words :
    (∀ x ∈ wordTable.names, IsIdentifier x) ∧ "null" ∈ wordTable.names ∧
      Format.yaml.deserialize (Format.yaml.serialize true wordTable.graph) =
        .ok wordTable.graph := by
  have hnames : ∀ x ∈ wordTable.names, IsIdentifier x := by decide
  exact ⟨hnames, by decide, yaml_class_graph_round_trip wordTable hnames true⟩

end ClassScript
