import ClassScript.Text.Lines
import ClassScript.Token.Position

/-!
# Two counts of lines

A place in a source is counted in lines that end at a line feed, an excerpt in lines that end at
every line boundary of Unicode. A line feed ends a line in both counts, so the excerpt never has
fewer lines. It has more where another boundary stands inside a line; up to the first such line the
two agree, a carriage return before the line feed aside.
-/

namespace ClassScript

namespace Text

/-- A text is its last line, or a line with its line feed and a text after it. -/
theorem newline_induction {motive : List Char → Prop} (last : ∀ l, '\n' ∉ l → motive l)
    (line : ∀ l rest, '\n' ∉ l → motive rest → motive (l ++ '\n' :: rest)) (cs : List Char) :
    motive cs := by
  suffices h : ∀ l, '\n' ∉ l → motive (l ++ cs) from h [] List.not_mem_nil
  induction cs with
  | nil =>
    intro l hl
    rw [List.append_nil]
    exact last l hl
  | cons c cs ih =>
    intro l hl
    by_cases hc : c = '\n'
    · subst hc
      exact line l cs hl (ih [] List.not_mem_nil)
    · have hl' : '\n' ∉ l ++ [c] := by
        intro hmem
        rcases List.mem_append.mp hmem with hmem | hmem
        · exact hl hmem
        · exact hc (List.mem_singleton.mp hmem).symm
      have longer := ih (l ++ [c]) hl'
      rwa [List.append_assoc] at longer

theorem splitOn_line {l : List Char} (hl : '\n' ∉ l) (rest : List Char) :
    (l ++ '\n' :: rest).splitOn '\n' = l :: rest.splitOn '\n' := by
  rw [List.splitOn_append_cons_self, List.splitOn_eq_singleton hl]
  rfl

/-- The first line goes on to the next line feed. -/
theorem splitOn_cons {l : List Char} (hl : '\n' ∉ l) {c : Char} (hc : c ≠ '\n') (post : List Char) :
    ∃ tail rest, (l ++ c :: post).splitOn '\n' = (l ++ c :: tail) :: rest := by
  have fresh {tail : List Char} (ht : '\n' ∉ tail) : '\n' ∉ l ++ c :: tail := by
    intro hmem
    rcases List.mem_append.mp hmem with hmem | hmem
    · exact hl hmem
    · rcases List.mem_cons.mp hmem with h | hmem
      · exact hc h.symm
      · exact ht hmem
  by_cases h : '\n' ∈ post
  · obtain ⟨tail, rest, rfl, ht⟩ := List.eq_append_cons_of_mem h
    refine ⟨tail, rest.splitOn '\n', ?_⟩
    have split := splitOn_line (fresh ht) rest
    rwa [List.append_assoc, List.cons_append] at split
  · exact ⟨post, [], List.splitOn_eq_singleton (fresh h)⟩

/-- A line without the carriage return at its end. -/
def withoutReturn (line : List Char) : List Char :=
  if line.getLast? = some '\r' then line.dropLast else line

/-- A line in both counts: it has no boundary in it but perhaps a carriage return at its end. -/
def IsOneLine (line : List Char) : Prop :=
  ∀ c ∈ withoutReturn line, isLineBreak c = false

instance (line : List Char) : Decidable (IsOneLine line) :=
  List.decidableBAll _ (withoutReturn line)

theorem withoutReturn_concat (l : List Char) : withoutReturn (l ++ ['\r']) = l := by
  simp [withoutReturn]

/-- A line is what is left of it, with or without a carriage return. -/
theorem withoutReturn_cases (l : List Char) :
    l = withoutReturn l ++ ['\r'] ∨ l = withoutReturn l := by
  by_cases h : l.getLast? = some '\r'
  · left
    obtain ⟨body, rfl⟩ := List.getLast?_eq_some_iff.mp h
    rw [withoutReturn_concat]
  · right
    rw [withoutReturn, if_neg h]

/-- What is not the carriage return keeps its place. -/
theorem getElem?_withoutReturn {l : List Char} {m : Nat} {c : Char} (h : l[m]? = some c)
    (hc : c ≠ '\r') : (withoutReturn l)[m]? = some c := by
  rcases withoutReturn_cases l with hreturn | hsame
  · rw [hreturn] at h
    by_cases hm : m < (withoutReturn l).length
    · rwa [List.getElem?_append_left hm] at h
    · rw [List.getElem?_append_right (Nat.le_of_not_lt hm)] at h
      have hmem := List.mem_of_getElem? h
      exact absurd (List.mem_singleton.mp hmem) hc
  · rwa [← hsame]

theorem splitLinesFrom_cons {c : Char} {line cs : List Char}
    (h : ¬(c = '\r' ∧ cs.head? = some '\n')) :
    splitLinesFrom line (c :: cs) =
      if isLineBreak c then line.reverse :: splitLinesFrom [] cs
      else splitLinesFrom (c :: line) cs := by
  rw [splitLinesFrom]
  rintro rest rfl rfl
  exact h ⟨rfl, rfl⟩

/-- What is no boundary is added to the current line. -/
theorem splitLinesFrom_append {l : List Char} (hl : ∀ c ∈ l, isLineBreak c = false)
    (line rest : List Char) :
    splitLinesFrom line (l ++ rest) = splitLinesFrom (l.reverse ++ line) rest := by
  induction l generalizing line with
  | nil => rfl
  | cons c l ih =>
    obtain ⟨hc, hl'⟩ := List.forall_mem_cons.mp hl
    have plain : ¬(c = '\r' ∧ (l ++ rest).head? = some '\n') := by
      rintro ⟨rfl, _⟩
      exact absurd hc (by decide)
    rw [List.cons_append, splitLinesFrom_cons plain, hc, if_neg Bool.false_ne_true, ih hl',
      List.reverse_cons, List.append_assoc]
    rfl

theorem splitLinesFrom_ne_nil (line : List Char) (c : Char) (cs : List Char) :
    splitLinesFrom line (c :: cs) ≠ [] := by
  induction cs generalizing line c with
  | nil =>
    rw [splitLinesFrom_cons (by simp)]
    split
    · exact List.cons_ne_nil _ _
    · simp [splitLinesFrom]
  | cons d cs ih =>
    by_cases h : c = '\r' ∧ (d :: cs).head? = some '\n'
    · obtain ⟨rfl, hd⟩ := h
      cases hd
      rw [splitLinesFrom]
      exact List.cons_ne_nil _ _
    · rw [splitLinesFrom_cons h]
      split
      · exact List.cons_ne_nil _ _
      · exact ih _ _

/-- A line feed ends a line in every count. -/
theorem splitLinesFrom_newline {l : List Char} (hl : '\n' ∉ l) (line rest : List Char) :
    ∃ first more, splitLinesFrom line (l ++ '\n' :: rest) =
      first :: more ++ splitLinesFrom [] rest := by
  induction l generalizing line with
  | nil => exact ⟨line.reverse, [], rfl⟩
  | cons c l ih =>
    have hl' : '\n' ∉ l := fun hmem => hl (List.mem_cons_of_mem c hmem)
    by_cases pair : c = '\r' ∧ (l ++ '\n' :: rest).head? = some '\n'
    · obtain ⟨rfl, hhead⟩ := pair
      cases l with
      | nil => exact ⟨line.reverse, [], rfl⟩
      | cons d l =>
        cases hhead
        exact absurd List.mem_cons_self hl'
    · rw [List.cons_append, splitLinesFrom_cons pair]
      by_cases hc : isLineBreak c = true
      · obtain ⟨first, more, hlines⟩ := ih hl' []
        refine ⟨line.reverse, first :: more, ?_⟩
        rw [if_pos hc, hlines]
        rfl
      · rw [if_neg hc]
        exact ih hl' _

/-- A line that is not empty is counted in both ways, so the excerpt has no fewer lines. -/
theorem lt_length_splitLinesFrom {cs : List Char} {k : Nat} {l : List Char}
    (hl : (cs.splitOn '\n')[k]? = some l) (hne : l ≠ []) (line : List Char) :
    k < (splitLinesFrom line cs).length := by
  induction cs using newline_induction generalizing k line with
  | last cs hcs =>
    rw [List.splitOn_eq_singleton hcs] at hl
    cases k with
    | zero =>
      cases hl
      obtain ⟨c, cs, rfl⟩ := List.exists_cons_of_ne_nil hne
      exact List.length_pos_iff.mpr (splitLinesFrom_ne_nil line c cs)
    | succ k => cases hl
  | line first rest hfirst ih =>
    obtain ⟨head, more, hlines⟩ := splitLinesFrom_newline hfirst line rest
    rw [hlines, List.length_append, List.length_cons]
    rw [splitOn_line hfirst] at hl
    cases k with
    | zero => omega
    | succ k =>
      have hrest := ih hl []
      omega

/-- No line of an excerpt has a boundary in it. -/
theorem isLineBreak_of_mem_splitLinesFrom {line cs l : List Char}
    (hline : ∀ c ∈ line, isLineBreak c = false) (hl : l ∈ splitLinesFrom line cs) :
    ∀ c ∈ l, isLineBreak c = false := by
  have hline' : ∀ c ∈ line.reverse, isLineBreak c = false :=
    fun c hc => hline c (List.mem_reverse.mp hc)
  fun_induction splitLinesFrom line cs with
  | case1 line hempty => cases hl
  | case2 line hempty =>
    cases List.mem_singleton.mp hl
    exact hline'
  | case3 line cs ih =>
    rcases List.mem_cons.mp hl with rfl | hmem
    · exact hline'
    · exact ih nofun hmem nofun
  | case4 line c cs pair hc ih =>
    rcases List.mem_cons.mp hl with rfl | hmem
    · exact hline'
    · exact ih nofun hmem nofun
  | case5 line c cs pair hc ih =>
    have hline'' : ∀ d ∈ c :: line, isLineBreak d = false :=
      List.forall_mem_cons.mpr ⟨Bool.eq_false_iff.mpr hc, hline⟩
    exact ih hline'' hl fun d hd => hline'' d (List.mem_reverse.mp hd)

section OneLine

variable {l : List Char} (hl : IsOneLine l)

include hl

theorem splitLinesFrom_oneLine_newline (rest : List Char) :
    splitLinesFrom [] (l ++ '\n' :: rest) = withoutReturn l :: splitLinesFrom [] rest := by
  have read (tail : List Char) : splitLinesFrom [] (withoutReturn l ++ tail) =
      splitLinesFrom (withoutReturn l).reverse tail := by
    rw [splitLinesFrom_append hl, List.append_nil]
  rcases withoutReturn_cases l with hreturn | hsame
  · have whole : l ++ '\n' :: rest = withoutReturn l ++ '\r' :: '\n' :: rest := by
      rw [congrArg (· ++ '\n' :: rest) hreturn, List.append_assoc]
      rfl
    rw [whole, read, splitLinesFrom, List.reverse_reverse]
  · have feed : ¬('\n' = '\r' ∧ rest.head? = some '\n') := by
      rintro ⟨h, _⟩
      exact absurd h (by decide)
    rw [congrArg (· ++ '\n' :: rest) hsame, read, splitLinesFrom_cons feed, if_pos (by decide),
      List.reverse_reverse]

theorem splitLinesFrom_oneLine_last (hne : l ≠ []) : splitLinesFrom [] l = [withoutReturn l] := by
  have read (tail : List Char) : splitLinesFrom [] (withoutReturn l ++ tail) =
      splitLinesFrom (withoutReturn l).reverse tail := by
    rw [splitLinesFrom_append hl, List.append_nil]
  rcases withoutReturn_cases l with hreturn | hsame
  · rw [congrArg (splitLinesFrom []) hreturn, read, splitLinesFrom_cons (by simp),
      if_pos (by decide), List.reverse_reverse]
    rfl
  · have whole : l = withoutReturn l ++ [] := by rw [List.append_nil]; exact hsame
    have hne' : (withoutReturn l).reverse.isEmpty = false := by
      rw [← hsame]
      simpa using hne
    rw [congrArg (splitLinesFrom []) whole, read, splitLinesFrom, hne', if_neg Bool.false_ne_true,
      List.reverse_reverse]

end OneLine

/-- Up to the first line with another boundary in it the two counts have the same lines. -/
theorem getElem?_splitLinesFrom {cs : List Char} {k : Nat} {l : List Char}
    (hl : (cs.splitOn '\n')[k]? = some l) (hne : l ≠ [])
    (plain : ∀ l' ∈ (cs.splitOn '\n').take (k + 1), IsOneLine l') :
    (splitLinesFrom [] cs)[k]? = some (withoutReturn l) := by
  induction cs using newline_induction generalizing k with
  | last cs hcs =>
    rw [List.splitOn_eq_singleton hcs] at hl plain
    cases k with
    | zero =>
      cases hl
      rw [splitLinesFrom_oneLine_last (plain l (by simp)) hne]
      rfl
    | succ k => cases hl
  | line first rest hfirst ih =>
    rw [splitOn_line hfirst] at hl plain
    have hfirst' : IsOneLine first := plain first (by simp)
    rw [splitLinesFrom_oneLine_newline hfirst']
    cases k with
    | zero =>
      cases hl
      rfl
    | succ k => exact ih hl fun l' hl' => plain l' (List.mem_cons_of_mem first hl')

end Text

namespace Position

theorem advance_of_not_mem {l : List Char} (hl : '\n' ∉ l) (p : Position) :
    (p.advance l).line = p.line ∧ (p.advance l).column = p.column + l.length := by
  induction l generalizing p with
  | nil => exact ⟨rfl, rfl⟩
  | cons c l ih =>
    have hc : c ≠ '\n' := fun h => hl (h ▸ List.mem_cons_self)
    have hl' : '\n' ∉ l := fun hmem => hl (List.mem_cons_of_mem c hmem)
    have hnext : p.next c = ⟨p.offset + 1, p.line, p.column + 1⟩ := if_neg hc
    obtain ⟨hline, hcolumn⟩ := ih hl' (p.next c)
    rw [advance_cons, hline, hcolumn, hnext, List.length_cons]
    constructor
    · rfl
    · dsimp only
      omega

/-- Line and column of a place count its lines, which end at a line feed, and the characters before
it on its line. -/
theorem getElem?_advance (pre : List Char) {c : Char} (hc : c ≠ '\n') (post : List Char)
    (p : Position) (hp : p.column = 1) :
    ∃ k m l, (p.advance pre).line = p.line + k ∧ (p.advance pre).column = m + 1 ∧
      ((pre ++ c :: post).splitOn '\n')[k]? = some l ∧ l[m]? = some c := by
  induction pre using Text.newline_induction generalizing p with
  | last pre hpre =>
    obtain ⟨hline, hcolumn⟩ := advance_of_not_mem hpre p
    obtain ⟨tail, rest, hsplit⟩ := Text.splitOn_cons hpre hc post
    refine ⟨0, pre.length, pre ++ c :: tail, hline, by omega, by rw [hsplit]; rfl, ?_⟩
    rw [List.getElem?_append_right (Nat.le_refl _), Nat.sub_self]
    rfl
  | line first rest hfirst ih =>
    obtain ⟨hline, _⟩ := advance_of_not_mem hfirst p
    obtain ⟨k, m, l, hline', hcolumn, hl, hm⟩ := ih ((p.advance first).next '\n') rfl
    rw [advance_append, advance_cons]
    refine ⟨k + 1, m, l, ?_, hcolumn, ?_, hm⟩
    · have hnext : ((p.advance first).next '\n').line = (p.advance first).line + 1 := rfl
      omega
    · rw [List.append_assoc, List.cons_append, Text.splitOn_line hfirst]
      exact hl

end Position

end ClassScript
