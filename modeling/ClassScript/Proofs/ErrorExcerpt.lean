import ClassScript.Proofs.EarliestError
import ClassScript.Proofs.LayoutIndependence
import ClassScript.Proofs.Lexemes
import ClassScript.Proofs.SourceLines

/-!
# What the excerpt of an error shows

The report of an error in a source quotes the lines around it. One row has the mark, with the number
of the error's line, and below it a caret at the error's column. The error counts lines that end at
a line feed, the excerpt lines that end at any boundary. Where the lines up to the error have no
other boundary in them, the marked row is the line of the error and the caret is below the offending
character. A form feed before the line is enough to move the mark to another line.
-/

namespace ClassScript

/-- The marked row of an excerpt. -/
def markedRow (width number : Nat) (text : String) : String :=
  "> " ++ padNumber width number ++ " | " ++ text

/-- The row below the marked one: as wide a margin, then the caret below a column. -/
def caretRow (width column : Nat) : String :=
  "  " ++ String.ofList (List.replicate width ' ') ++ " | " ++
    String.ofList (List.replicate (column - 1) ' ') ++ "^"

/-- Any other row. -/
def plainRow (width number : Nat) (text : String) : String :=
  "  " ++ padNumber width number ++ " | " ++ text

theorem excerptRow_of_eq (width line column : Nat) (text : String) :
    excerptRow width line (some column) line text =
      [markedRow width line text, caretRow width column] := by
  have hcolumn : ((column : Int) - 1).toNat = column - 1 := by omega
  simp only [excerptRow, if_true, hcolumn, markedRow, caretRow]

theorem excerptRow_of_ne {width line number : Nat} (h : number ≠ line) (column : Option Int)
    (text : String) :
    excerptRow width line column number text = [plainRow width number text] := by
  have h' : ¬(number : Int) = line := by omega
  cases column <;> simp only [excerptRow, if_neg h', plainRow]

theorem newline_not_mem_padNumber (width number : Nat) :
    '\n' ∉ (padNumber width number).toList := by
  intro hmem
  rw [padNumber, String.toList_append, String.toList_ofList] at hmem
  rcases List.mem_append.mp hmem with hblank | hdigit
  · exact absurd (List.eq_of_mem_replicate hblank) (by decide)
  · have digits : (toString number).toList = Nat.toDigits 10 number := Nat.toList_repr
    rw [digits] at hdigit
    exact absurd (Nat.isDigit_of_mem_toDigits (by decide) (by decide) hdigit) (by decide)

/-- A number is as wide as the margin when a greater one fits it. -/
theorem length_padNumber {number last : Nat} (h : number ≤ last) :
    (padNumber (toString last).length number).length = (toString last).length := by
  have fits : (toString number).length ≤ (toString last).length := by
    have hpos : 0 < (toString last).length := Nat.length_repr_pos
    have hlast : last < 10 ^ (toString last).length :=
      (Nat.length_repr_le_iff hpos).mp (Nat.le_refl _)
    exact (Nat.length_repr_le_iff hpos).mpr (Nat.lt_of_le_of_lt h hlast)
  simp only [padNumber, String.length_append, String.length_ofList, List.length_replicate]
  omega

/-- The rows of an excerpt: none has a line feed in it, one is marked and has this number and text,
and the row below has a caret below a column of the text, as both have the same margin. -/
def Marks (rows : List String) (number column : Nat) (text : String) : Prop :=
  (∀ row ∈ rows, '\n' ∉ row.toList) ∧
  ∃ before after width,
    rows = before ++ markedRow width number text :: caretRow width column :: after ∧
    (padNumber width number).length = width ∧
    ∀ row ∈ before ++ caretRow width column :: after, row.toList.head? = some ' '

theorem Marks.intercalate_ne {rows : List String} {number column : Nat} {text : String}
    (h : Marks rows number column text) : String.intercalate "\n" rows ≠ "" := by
  obtain ⟨_, before, after, width, rfl, _⟩ := h
  have two : ∃ first rest, rest ≠ [] ∧
      before ++ markedRow width number text :: caretRow width column :: after = first :: rest := by
    cases before with
    | nil => exact ⟨_, _, List.cons_ne_nil _ _, rfl⟩
    | cons first before =>
      exact ⟨first, _, List.append_ne_nil_of_right_ne_nil _ (List.cons_ne_nil _ _), rfl⟩
  obtain ⟨first, rest, hrest, hrows⟩ := two
  rw [hrows, String.intercalate_cons_of_ne_nil hrest]
  intro hempty
  have hlength := congrArg String.length hempty
  simp at hlength

theorem newline_not_mem_of_mem_splitLines {source text : String}
    (h : text ∈ Text.splitLines source) : '\n' ∉ text.toList := by
  obtain ⟨l, hl, rfl⟩ := List.mem_map.mp h
  rw [String.toList_ofList]
  intro hmem
  have nothing : ∀ c ∈ ([] : List Char), Text.isLineBreak c = false := nofun
  exact absurd (Text.isLineBreak_of_mem_splitLinesFrom nothing hl '\n' hmem) (by decide)

theorem newline_not_mem_plainRow (width number : Nat) {text : String} (h : '\n' ∉ text.toList) :
    '\n' ∉ (plainRow width number text).toList := by
  simp [plainRow, String.toList_append, newline_not_mem_padNumber, h]

theorem newline_not_mem_markedRow (width number : Nat) {text : String} (h : '\n' ∉ text.toList) :
    '\n' ∉ (markedRow width number text).toList := by
  simp [markedRow, String.toList_append, newline_not_mem_padNumber, h]

theorem newline_not_mem_caretRow (width column : Nat) :
    '\n' ∉ (caretRow width column).toList := by
  simp [caretRow, String.toList_append]

/-- Numbered lines without the marked one give plain rows. -/
theorem mem_plainRows {lines : List (String × Nat)} {width line : Nat} {column : Option Int}
    (h : ∀ p ∈ lines, p.2 ≠ line) {row : String}
    (hrow : row ∈ lines.flatMap fun p => excerptRow width line column p.2 p.1) :
    ∃ p ∈ lines, row = plainRow width p.2 p.1 := by
  obtain ⟨p, hp, hmem⟩ := List.mem_flatMap.mp hrow
  rw [excerptRow_of_ne (h p hp)] at hmem
  exact ⟨p, hp, List.mem_singleton.mp hmem⟩

/-- The rows of the numbered lines that are shown, the marked one among them. -/
theorem rows_of_split (before after : List String) (text : String) (width column : Nat)
    {shown : String × Nat → Bool} (inside : shown (text, before.length + 1) = true) :
    ∃ front back,
      (((before ++ text :: after).zipIdx 1).filter shown).flatMap (fun p =>
          excerptRow width (before.length + 1 : Nat) (some (column : Int)) p.2 p.1) =
        front ++ markedRow width (before.length + 1) text :: caretRow width column :: back ∧
      ∀ row ∈ front ++ back, ∃ number, ∃ t ∈ before ++ text :: after,
        row = plainRow width number t := by
  let line := before.length + 1
  let rows (p : String × Nat) := excerptRow width line (some (column : Int)) p.2 p.1
  let front := (before.zipIdx 1).filter shown
  let back := (after.zipIdx (line + 1)).filter shown
  refine ⟨front.flatMap rows, back.flatMap rows, ?_, fun row hrow => ?_⟩
  · have hnumber : 1 + before.length = line := Nat.add_comm _ _
    rw [List.zipIdx_append, List.zipIdx_cons, hnumber, List.filter_append,
      List.filter_cons_of_pos inside, List.flatMap_append, List.flatMap_cons, excerptRow_of_eq]
    rfl
  · rcases List.mem_append.mp hrow with hrow | hrow
    · have unmarked : ∀ p ∈ front, p.2 ≠ line := by
        intro p hp
        have hlt := List.snd_lt_of_mem_zipIdx (List.mem_filter.mp hp).1
        omega
      obtain ⟨p, hp, rfl⟩ := mem_plainRows unmarked hrow
      have ht := List.fst_mem_of_mem_zipIdx (List.mem_filter.mp hp).1
      exact ⟨p.2, p.1, List.mem_append_left _ ht, rfl⟩
    · have unmarked : ∀ p ∈ back, p.2 ≠ line := by
        intro p hp
        have hle := List.le_snd_of_mem_zipIdx (List.mem_filter.mp hp).1
        omega
      obtain ⟨p, hp, rfl⟩ := mem_plainRows unmarked hrow
      have ht := List.fst_mem_of_mem_zipIdx (List.mem_filter.mp hp).1
      exact ⟨p.2, p.1, List.mem_append_right _ (List.mem_cons_of_mem text ht), rfl⟩

/-- The excerpt around a line that there is marks this line. -/
theorem excerpt_marks {source text : String} {before after : List String}
    (hlines : Text.splitLines source = before ++ text :: after) (column : Nat) {radius : Int}
    (hradius : 0 ≤ radius) :
    ∃ rows, excerpt source (before.length + 1 : Nat) (some (column : Int)) radius =
      String.intercalate "\n" rows ∧ Marks rows (before.length + 1) column text := by
  have hlength : (Text.splitLines source).length = before.length + (after.length + 1) := by
    rw [hlines, List.length_append, List.length_cons]
  obtain ⟨last, hlast⟩ : ∃ last : Nat,
      min ((Text.splitLines source).length : Int) ((before.length + 1 : Nat) + radius) = last :=
    Int.eq_ofNat_of_zero_le (by omega)
  have hle : before.length + 1 ≤ last := by omega
  let shown (p : String × Nat) : Bool :=
    decide (((before.length + 1 : Nat) : Int) - radius ≤ p.2) && decide ((p.2 : Int) ≤ last)
  have inside : shown (text, before.length + 1) = true := by
    simp only [shown, Bool.and_eq_true, decide_eq_true_eq]
    omega
  obtain ⟨front, back, hrows, plain⟩ :=
    rows_of_split before after text (toString last).length column inside
  refine ⟨_, ?_, ?_, front, back, (toString last).length, rfl, length_padNumber hle, ?_⟩
  · have there : ¬(((before.length + 1 : Nat) : Int) < 1 ∨
        ((Text.splitLines source).length : Int) < (before.length + 1 : Nat)) := by
      omega
    rw [excerpt, if_neg there, hlast, ← hrows, ← hlines]
    rfl
  · have nofeed : ∀ t ∈ before ++ text :: after, '\n' ∉ t.toList :=
      fun t ht => newline_not_mem_of_mem_splitLines (hlines ▸ ht)
    have plain' : ∀ row ∈ front ++ back, '\n' ∉ row.toList := by
      intro row hrow
      obtain ⟨number, t, ht, rfl⟩ := plain row hrow
      exact newline_not_mem_plainRow _ number (nofeed t ht)
    intro row hrow
    rcases List.mem_append.mp hrow with hrow | hrow
    · exact plain' row (List.mem_append_left _ hrow)
    · rcases List.mem_cons.mp hrow with rfl | hrow
      · exact newline_not_mem_markedRow _ _ (nofeed text (by simp))
      · rcases List.mem_cons.mp hrow with rfl | hrow
        · exact newline_not_mem_caretRow _ _
        · exact plain' row (List.mem_append_right _ hrow)
  · intro row hrow
    rcases List.mem_append.mp hrow with hrow | hrow
    · obtain ⟨number, t, _, rfl⟩ := plain row (List.mem_append_left _ hrow)
      simp [plainRow, String.toList_append]
    · rcases List.mem_cons.mp hrow with rfl | hrow
      · simp [caretRow, String.toList_append]
      · obtain ⟨number, t, _, rfl⟩ := plain row (List.mem_append_right _ hrow)
        simp [plainRow, String.toList_append]

namespace SourceError

def line : SourceError → Option Nat
  | lex e => some e.line
  | parse e => e.line

def column : SourceError → Option Nat
  | lex e => some e.column
  | parse e => e.column

/-- The offending character, or the first one of the offending token. -/
def culprit? : SourceError → Option Char
  | lex e => some e.char
  | parse e => e.found.bind fun t => t.text.toList.head?

/-- What the message says in front of the excerpt. -/
def headline : SourceError → String
  | lex e => "LexError: " ++ e.message
  | parse e => "ParseError: " ++ e.message

/-- At this place of the source, not a blank one, stands what is wrong. -/
def StandsIn (e : SourceError) (source : List Char) (place : Position) : Prop :=
  ∃ pre c post, source = pre ++ c :: post ∧ place = Position.start.advance pre ∧
    e.culprit? = some c ∧ Text.isBlank c = false

end SourceError

theorem LexError.StandsIn.place {e : LexError} {source : List Char} (h : e.StandsIn source) :
    (SourceError.lex e).StandsIn source e.position := by
  obtain ⟨pre, post, hsource, hrule, hplace⟩ := h
  refine ⟨pre, e.char, post, hsource, hplace, rfl, ?_⟩
  cases hblank : Text.isBlank e.char with
  | false => rfl
  | true =>
    rw [Rule.first?_of_blank hblank] at hrule
    cases hrule

theorem Token.StandsIn.place {t : Token} {source : List Char} (h : t.StandsIn source)
    {e : ParseError} (hfound : e.found = some t) :
    ∃ place, (SourceError.parse e).StandsIn source place ∧ place.line = t.line ∧
      place.column = t.column := by
  have lexeme := h.isLexeme
  obtain ⟨pre, post, r, hsource, _, _, htext, hline, hcolumn⟩ := h
  obtain ⟨c, more, hc⟩ := List.exists_cons_of_ne_nil lexeme.ne_nil
  have hhead : post.head? = some c := by
    rw [hc] at htext
    cases post with
    | nil => rw [List.take_nil] at htext; cases htext
    | cons d post =>
      cases hn : r.extent (d :: post) with
      | zero => rw [hn] at htext; cases htext
      | succ n => rw [hn] at htext; cases htext; rfl
  obtain ⟨post', rfl⟩ := List.head?_eq_some_iff.mp hhead
  refine ⟨_, ⟨pre, c, post', hsource, rfl, ?_, ?_⟩, hline.symm, hcolumn.symm⟩
  · rw [SourceError.culprit?, hfound, Option.bind_some, hc]
    rfl
  · rw [hc] at lexeme
    exact lexeme.not_blank

/-- The place of an error in a source is where it stands. -/
theorem standsIn_of_malformed {depth : Nat} {source : String} {e : SourceError}
    (h : parseSource depth source = .error (.malformed e)) {line column : Nat}
    (hline : e.line = some line) (hcolumn : e.column = some column) :
    ∃ place, e.StandsIn source.toList place ∧ place.line = line ∧ place.column = column := by
  rcases hscan : scan source with ⟨ts, _ | error⟩
  · have hts := tokenize_of_scan hscan
    rw [parseSource_of_tokenize hts] at h
    cases hp : parseTokens depth ts with
    | ok p => rw [hp] at h; cases h
    | error failure =>
      rw [hp] at h
      cases failure with
      | tooDeep => cases h
      | unexpected error =>
        cases h
        obtain ⟨t, hfound, rfl⟩ := Option.map_eq_some_iff.mp hline
        cases hcolumn.symm.trans (congrArg (Option.map Token.column) hfound)
        obtain ⟨pre, hsplit, _⟩ :=
          (Parser.alike_wholeProgram depth ts).reads_of_ended (parseTokens_error.mp hp)
        have hmem : t ∈ (scan source).tokens := by
          rw [hscan, hsplit]
          exact List.mem_append_right _ (List.mem_of_head? hfound)
        exact ((Scan.standsIn source).1 t hmem).place hfound
  · have malformed : parseSource depth source = .error (.malformed (.lex error)) := by
      rw [parseSource, tokenize, hscan]
    cases malformed.symm.trans h
    cases hline
    cases hcolumn
    have stands : error.StandsIn source.toList := (Scan.standsIn source).2 error (by rw [hscan]; rfl)
    exact ⟨error.position, stands.place, rfl, rfl⟩

theorem parseLogged_malformed {env : Environment} {source : String} {e : SourceError}
    (h : parseSource env.syntaxDepth source = .error (.malformed e)) (c : Context) :
    ∃ log, parseLogged env source c = (.error (.malformed e), { c with log }) := by
  rcases hscan : scan source with ⟨ts, _ | error⟩
  · have hts := tokenize_of_scan hscan
    refine ⟨tokenLog env (ts.map Token.face) ++ c.log, ?_⟩
    rw [parseSource_of_tokenize hts] at h
    rw [parseLogged_apply env hts]
    cases hp : parseTokens env.syntaxDepth ts with
    | ok p => rw [hp] at h; cases h
    | error failure =>
      rw [hp] at h
      cases failure with
      | tooDeep => cases h
      | unexpected error => cases h; rfl
  · refine ⟨tokenLog env (ts.map Token.face) ++ c.log, ?_⟩
    have malformed : parseSource env.syntaxDepth source = .error (.malformed (.lex error)) := by
      rw [parseSource, tokenize, hscan]
    cases malformed.symm.trans h
    rw [parseLogged, hscan]
    dsimp only
    rw [Run.bind_apply, logTokens_apply]
    rfl

/-- A source with an error in it is reported with an excerpt, and nothing of it runs. -/
theorem run_of_malformed {s : Session} {source : String} {e : SourceError}
    (h : parseSource s.limits.syntaxDepth source = .error (.malformed e)) (debug : Bool) :
    (s.run debug source).1 = .ofSourceError "" (some source) e := by
  have malformed : parseSource (s.environment debug).syntaxDepth source = .error (.malformed e) := h
  obtain ⟨log, hparse⟩ := parseLogged_malformed malformed s.fresh
  have output : s.shownOutput { s.fresh with log } = "" := by
    rw [Session.shownOutput]
    split <;> rfl
  rw [Session.run, hparse]
  dsimp only
  rw [output]
  rfl

theorem Report.sourceMessage_of_place (message source : String) (line column : Nat) :
    Report.sourceMessage message (some source) (some line) (some column) =
      if (excerpt source line (some (column : Int)) messageRadius).isEmpty then message
      else message ++ "\n" ++ excerpt source line (some (column : Int)) messageRadius := rfl

/-- The message of an error whose line the excerpt has. -/
theorem message_ofSourceError {source text : String} {e : SourceError} {line column : Nat}
    (hline : e.line = some (line + 1)) (hcolumn : e.column = some column)
    (htext : (Text.splitLines source)[line]? = some text) :
    ∃ rows, (Report.ofSourceError "" (some source) e).message =
      some (e.headline ++ "\n" ++ String.intercalate "\n" rows) ∧
      Marks rows (line + 1) column text := by
  obtain ⟨before, after, hlines, rfl⟩ : ∃ before after,
      Text.splitLines source = before ++ text :: after ∧ before.length = line := by
    obtain ⟨hlt, rfl⟩ := List.getElem?_eq_some_iff.mp htext
    refine ⟨(Text.splitLines source).take line, (Text.splitLines source).drop (line + 1), ?_, ?_⟩
    · rw [List.getElem_cons_drop, List.take_append_drop]
    · rw [List.length_take]
      omega
  obtain ⟨rows, hexcerpt, marks⟩ := excerpt_marks hlines column (by decide : 0 ≤ messageRadius)
  refine ⟨rows, ?_, marks⟩
  have message : (Report.ofSourceError "" (some source) e).message =
      some (Report.sourceMessage e.headline (some source) e.line e.column) := by
    cases e <;> rfl
  have shown : (String.intercalate "\n" rows).isEmpty = false :=
    String.isEmpty_eq_false_iff.mpr marks.intercalate_ne
  have quoted : Report.sourceMessage e.headline (some source) (some (before.length + 1))
      (some column) = e.headline ++ "\n" ++ String.intercalate "\n" rows := by
    rw [Report.sourceMessage_of_place, hexcerpt, shown, if_neg Bool.false_ne_true]
  rw [message, hline, hcolumn, quoted]

/-- The report of an error in a source marks one row, with the number of the error's line, and puts
a caret below the error's column. The row has the text of the line with this number in the count of
all boundaries. When the lines up to the error, ending at line feeds, have no other boundary in
them, it is the line of the error, and the caret is below the offending character or the first one
of the offending token. -/
theorem error_excerpt {s : Session} {source : String} {e : SourceError}
    (h : parseSource s.limits.syntaxDepth source = .error (.malformed e)) {line column : Nat}
    (hline : e.line = some line) (hcolumn : e.column = some column) (debug : Bool) :
    (s.run debug source).1.detail = some e ∧ (s.run debug source).1.line = some line ∧
    (s.run debug source).1.column = some column ∧
    ∃ rows text l c,
      (s.run debug source).1.message =
        some (e.headline ++ "\n" ++ String.intercalate "\n" rows) ∧
      Marks rows line column text ∧ (Text.splitLines source)[line - 1]? = some text ∧
      (source.toList.splitOn '\n')[line - 1]? = some l ∧ l[column - 1]? = some c ∧
      e.culprit? = some c ∧
      ((∀ l' ∈ (source.toList.splitOn '\n').take line, Text.IsOneLine l') →
        text.toList = Text.withoutReturn l ∧ text.toList[column - 1]? = some c) := by
  obtain ⟨place, ⟨pre, c, post, hsource, rfl, hculprit, hblank⟩, hplace, hplace'⟩ :=
    standsIn_of_malformed h hline hcolumn
  have hfeed : c ≠ '\n' := by rintro rfl; cases hblank
  have hreturn : c ≠ '\r' := by rintro rfl; cases hblank
  obtain ⟨k, m, l, hk, hm, hl, hc⟩ := Position.getElem?_advance pre hfeed post .start rfl
  have hne : l ≠ [] := by rintro rfl; cases hc
  obtain rfl : line = k + 1 := by
    rw [← hplace, hk]
    exact Nat.add_comm _ _
  obtain rfl : column = m + 1 := by rw [← hplace', hm]
  rw [← hsource] at hl
  -- the line of the error is there in the other count as well, if perhaps with another text
  have hlt : k < (Text.splitLines source).length := by
    rw [Text.splitLines, List.length_map]
    exact Text.lt_length_splitLinesFrom hl hne []
  obtain ⟨text, htext⟩ : ∃ text, (Text.splitLines source)[k]? = some text :=
    ⟨_, List.getElem?_eq_getElem hlt⟩
  obtain ⟨rows, hmessage, marks⟩ := message_ofSourceError hline hcolumn htext
  rw [run_of_malformed h debug]
  refine ⟨by cases e <;> rfl, ?_, ?_, rows, text, l, c, hmessage, marks, htext, hl, hc, hculprit,
    fun plain => ?_⟩
  · rw [← hline]
    cases e <;> rfl
  · rw [← hcolumn]
    cases e <;> rfl
  · have same : text.toList = Text.withoutReturn l := by
      have hsame := Text.getElem?_splitLinesFrom hl hne plain
      rw [Text.splitLines, List.getElem?_map, hsame] at htext
      cases htext
      exact String.toList_ofList
    exact ⟨same, same ▸ Text.getElem?_withoutReturn hc hreturn⟩

private def bareSession : Session := .start ⟨"", []⟩ none true ""

/-- A token is missing behind a line that ends in a carriage return, and a literal over two lines
before it. -/
theorem error_excerpt_multiline :
    parseSource bareSession.limits.syntaxDepth "s = \"x\ny\";\r\nprint (;" =
      .error (.malformed (.parse ⟨.expression, [⟨.separator, ";", 3, 8⟩]⟩)) ∧
    ∃ rows, (bareSession.run false "s = \"x\ny\";\r\nprint (;").1.message =
        some ("ParseError: Expected an expression but found ';'" ++ "\n" ++
          String.intercalate "\n" rows) ∧
      Marks rows 3 8 "print (;" := by
  have scanned : scan "s = \"x\ny\";\r\nprint (;" = ⟨[⟨.identifier, "s", 1, 1⟩,
      ⟨.assign, "=", 1, 3⟩, ⟨.string, "\"x\ny\"", 1, 5⟩, ⟨.separator, ";", 2, 3⟩,
      ⟨.identifier, "print", 3, 1⟩, ⟨.lparen, "(", 3, 7⟩, ⟨.separator, ";", 3, 8⟩], none⟩ := by
    decide +kernel
  have malformed : parseSource bareSession.limits.syntaxDepth "s = \"x\ny\";\r\nprint (;" =
      .error (.malformed (.parse ⟨.expression, [⟨.separator, ";", 3, 8⟩]⟩)) := by
    rw [parseSource_of_tokenize (tokenize_of_scan scanned)]
    rfl
  refine ⟨malformed, ?_⟩
  obtain ⟨_, _, _, rows, text, l, c, message, marks, _, hl, _, _, same⟩ :=
    error_excerpt malformed rfl rfl false
  obtain rfl : text = "print (;" := by
    have third : ("s = \"x\ny\";\r\nprint (;".toList.splitOn '\n')[2]? =
        some "print (;".toList := by decide
    have plain : ∀ l' ∈ ("s = \"x\ny\";\r\nprint (;".toList.splitOn '\n').take 3,
        Text.IsOneLine l' := by decide
    cases third.symm.trans hl
    exact String.toList_inj.mp (same plain).1
  have headline : (SourceError.parse ⟨.expression, [⟨.separator, ";", 3, 8⟩]⟩).headline =
      "ParseError: Expected an expression but found ';'" := by decide +kernel
  rw [headline] at message
  exact ⟨rows, message, marks⟩

/-- A form feed ends a line of the excerpt and no line of the error: the mark is on an empty row
between the line of the form feed and that of the error. -/
theorem error_excerpt_form_feed :
    parseSource bareSession.limits.syntaxDepth "a = 1;\x0c\nb = @;" =
      .error (.malformed (.lex ⟨'@', ⟨12, 2, 5⟩⟩)) ∧
    ("a = 1;\x0c\nb = @;".toList.splitOn '\n')[1]? = some "b = @;".toList ∧
    (bareSession.run false "a = 1;\x0c\nb = @;").1.message =
      some (String.intercalate "\n" ["LexError: Unknown symbol '@' at line 2, offset 12",
        "  1 | a = 1;", "> 2 | ", "    |     ^", "  3 | b = @;"]) := by
  have malformed : parseSource bareSession.limits.syntaxDepth "a = 1;\x0c\nb = @;" =
      .error (.malformed (.lex ⟨'@', ⟨12, 2, 5⟩⟩)) := by
    have scanned : (scan "a = 1;\x0c\nb = @;").error = some ⟨'@', ⟨12, 2, 5⟩⟩ := by
      decide +kernel
    rw [parseSource, tokenize]
    rcases hscan : scan "a = 1;\x0c\nb = @;" with ⟨ts, error⟩
    rw [hscan] at scanned
    cases scanned
    rfl
  refine ⟨malformed, by decide, ?_⟩
  rw [run_of_malformed malformed]
  decide +kernel

end ClassScript
