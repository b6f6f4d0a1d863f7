import ClassScript.Proofs.Retokenizing

/-!
# Every character of a source is accounted for

A source is made of its tokens and of gaps before, between and after them. A gap holds blanks and
comments and nothing else. A token stands at an offset, at which the source has its text, and line
and column of the token are those of the offset: the line counts the line feeds before it, and the
column counts from the last of them. The scan keeps line and column as it goes, so both hold however
many line feeds a gap or a literal has.

A scan that fails does so at the offset of a character at which no rule applies.
-/

namespace ClassScript

/-- Blanks and comments, in front of the text `after`. A comment goes on to a line feed or to the
end of the source. -/
inductive Gap (after : List Char) : List Char → Prop
  | nil : Gap after []
  | blank {c : Char} {cs : List Char} : Text.isBlank c = true → Gap after cs → Gap after (c :: cs)
  | comment {text cs : List Char} : '\n' ∉ text → (∀ c ∈ (cs ++ after).head?, c = '\n') →
    Gap after cs → Gap after ('/' :: '/' :: (text ++ cs))

/-- The offset right after the last line feed before `o`, zero if there is none. -/
def lineStart (source : List Char) : Nat → Nat
  | 0 => 0
  | o + 1 => if source[o]? = some '\n' then o + 1 else lineStart source o

/-- The place of an offset. -/
def placeAt (source : List Char) (o : Nat) : Position :=
  ⟨o, 1 + (source.take o).count '\n', o - lineStart source o + 1⟩

/-- The token stands in the source at the offset `o`. -/
structure Token.StandsAt (t : Token) (source : List Char) (o : Nat) : Prop where
  text : (source.drop o).take t.text.length = t.text.toList
  nonempty : 0 < t.text.length
  line : t.line = (placeAt source o).line
  column : t.column = (placeAt source o).column

/-- From the offset `a` on the source is made of these tokens, each at its offset, and of gaps. -/
def Tiles (source : List Char) : Nat → List (Nat × Token) → Prop
  | a, [] => a ≤ source.length ∧ Gap [] (source.drop a)
  | a, (o, t) :: rest => a ≤ o ∧ Gap (source.drop o) ((source.take o).drop a) ∧
    t.StandsAt source o ∧ Tiles source (o + t.text.length) rest

theorem lineStart_le (source : List Char) (o : Nat) : lineStart source o ≤ o := by
  induction o with
  | zero => exact Nat.le_refl 0
  | succ o ih =>
    rw [lineStart]
    by_cases h : source[o]? = some '\n'
    · exact Nat.le_of_eq (if_pos h)
    · rw [if_neg h]
      omega

/-- Line and column kept from character to character are those of the offset. -/
theorem advance_take {source : List Char} {o : Nat} (ho : o ≤ source.length) :
    Position.start.advance (source.take o) = placeAt source o := by
  induction o with
  | zero => rfl
  | succ o ih =>
    have hlt : o < source.length := by omega
    have hchar : source[o]? = some source[o] := List.getElem?_eq_getElem hlt
    have hstart := lineStart_le source o
    have htake := List.take_succ_eq_append_getElem hlt
    have hcount : (source.take (o + 1)).count '\n' =
        (source.take o).count '\n' + [source[o]].count '\n' := by
      rw [htake, List.count_append]
    rw [htake, Position.advance_append, ih (by omega)]
    change (placeAt source o).next source[o] = placeAt source (o + 1)
    rw [Position.next, placeAt, placeAt, hcount, lineStart, hchar]
    by_cases h : source[o] = '\n'
    · rw [if_pos h, h, if_pos rfl, List.count_singleton_self]
      simp only [Position.mk.injEq, true_and]
      constructor
      · omega
      · omega
    · have hne : some source[o] ≠ some '\n' := fun heq => h (Option.some.inj heq)
      rw [if_neg h, if_neg hne, List.count_singleton, beq_false_of_ne h]
      simp only [Position.mk.injEq, true_and, Bool.false_eq_true, if_false]
      constructor
      · omega
      · omega

/-- The place behind a part of the source is that of the offset behind it. -/
theorem advance_placeAt {source done lexeme rest : List Char}
    (hsource : source = done ++ lexeme ++ rest) :
    (placeAt source done.length).advance lexeme = placeAt source (done ++ lexeme).length := by
  have hbound : (done ++ lexeme).length ≤ source.length := by
    rw [hsource]
    simp only [List.length_append]
    omega
  have hdone : done.length ≤ source.length := by
    rw [List.length_append] at hbound
    omega
  have front : source.take done.length = done := by
    rw [hsource, List.append_assoc, List.take_left]
  have behind : source.take (done ++ lexeme).length = done ++ lexeme := by
    rw [hsource, List.take_left]
  rw [← advance_take hdone, front, ← Position.advance_append, ← advance_take hbound, behind]

theorem Gap.append {cs ds after : List Char} (h : Gap (ds ++ after) cs) (h' : Gap after ds) :
    Gap after (cs ++ ds) := by
  induction h with
  | nil => exact h'
  | blank hc _ ih => exact .blank hc ih
  | comment htext hend _ ih =>
    rw [List.cons_append, List.cons_append, List.append_assoc]
    refine .comment htext ?_ ih
    rwa [List.append_assoc]

theorem gap_of_blanks {cs : List Char} (h : ∀ c ∈ cs, Text.isBlank c = true) (after : List Char) :
    Gap after cs := by
  induction cs with
  | nil => exact .nil
  | cons c cs ih =>
    obtain ⟨hc, hcs⟩ := List.forall_mem_cons.mp h
    exact .blank hc (ih hcs)

/-- A rule that makes no token takes a gap. -/
theorem Rule.gap_of_first? {cs : List Char} {r : Rule} (h : first? cs = some r)
    (hkind : r.kind = none) :
    ∃ gap rest, cs = gap ++ rest ∧ r.extent cs = gap.length ∧ Gap rest gap := by
  have hmem : r ∈ all := List.mem_of_find?_eq_some h
  have hpos := extent_pos_of_first? h
  have skips : r = ⟨none, blanks⟩ ∨ r = ⟨none, comment⟩ := by
    simp only [all, List.mem_cons, List.not_mem_nil, or_false] at hmem
    rcases hmem with rfl | rfl | hmem
    · exact Or.inl rfl
    · exact Or.inr rfl
    · exfalso
      rcases hmem with rfl | rfl | rfl | rfl | rfl | rfl | rfl | rfl | rfl | rfl | rfl | rfl | rfl |
        rfl | rfl
      all_goals cases hkind
  rcases skips with rfl | rfl
  · refine ⟨cs.takeWhile Text.isBlank, cs.dropWhile Text.isBlank, ?_, rfl, ?_⟩
    · exact List.takeWhile_append_dropWhile.symm
    · exact gap_of_blanks (List.all_eq_true.mp List.all_takeWhile) _
  · change 0 < comment cs at hpos
    unfold comment at hpos
    split at hpos
    · rename_i text
      let body := text.takeWhile (· != '\n')
      let rest := text.dropWhile (· != '\n')
      have whole : text = body ++ rest := List.takeWhile_append_dropWhile.symm
      have hbody : '\n' ∉ body := by
        intro hmem
        have hne := List.all_eq_true.mp List.all_takeWhile _ hmem
        exact absurd hne (by decide)
      have hrest : ∀ c ∈ rest.head?, c = '\n' := by
        intro c hc
        have hhead := List.head?_dropWhile_not (· != '\n') text
        rw [Option.mem_def.mp hc] at hhead
        simpa using hhead
      refine ⟨'/' :: '/' :: (body ++ []), rest, ?_, ?_, .comment hbody hrest .nil⟩
      · rw [List.append_nil, List.cons_append, List.cons_append, ← whole]
      · rw [List.append_nil]
        change 2 + body.length = body.length + 2
        omega
    · exact absurd hpos (Nat.lt_irrefl 0)

section Tiles

variable {source : List Char}

theorem drop_take_append_drop {a b : Nat} (h : a ≤ b) :
    (source.take b).drop a ++ source.drop b = source.drop a := by
  rw [List.drop_take]
  have rest : source.drop b = (source.drop a).drop (b - a) := by
    rw [List.drop_drop]
    congr 1
    omega
  rw [rest, List.take_append_drop]

theorem drop_take_append_drop_take {a b o : Nat} (hab : a ≤ b) (hbo : b ≤ o) :
    (source.take b).drop a ++ (source.take o).drop b = (source.take o).drop a := by
  have shorter : source.take b = (source.take o).take b := by
    rw [List.take_take, Nat.min_eq_left hbo]
  rw [shorter]
  exact drop_take_append_drop hab

/-- A gap in front of a gap is part of it. -/
theorem Tiles.extend {a b : Nat} (hab : a ≤ b)
    (gap : Gap (source.drop b) ((source.take b).drop a)) {placed : List (Nat × Token)}
    (h : Tiles source b placed) : Tiles source a placed := by
  cases placed with
  | nil =>
    obtain ⟨hle, last⟩ := h
    refine ⟨by omega, ?_⟩
    rw [← drop_take_append_drop hab]
    refine Gap.append ?_ last
    rwa [List.append_nil]
  | cons p rest =>
    obtain ⟨o, t⟩ := p
    obtain ⟨hbo, next, stands, tiles⟩ := h
    refine ⟨by omega, ?_, stands, tiles⟩
    rw [← drop_take_append_drop_take hab hbo]
    refine Gap.append ?_ next
    rwa [drop_take_append_drop hbo]

section Front

variable {done front rest : List Char} {placed : List (Nat × Token)}

theorem Tiles.gap_front (hsource : source = done ++ front ++ rest) (gap : Gap rest front)
    (h : Tiles source (done ++ front).length placed) : Tiles source done.length placed := by
  refine h.extend ?_ ?_
  · rw [List.length_append]
    omega
  · have within : (source.take (done ++ front).length).drop done.length = front := by
      rw [hsource, List.take_left, List.drop_left]
    rw [within, hsource, List.drop_left]
    exact gap

/-- A token in front, with line and column of its offset and no gap before it. -/
theorem Tiles.token_front (hsource : source = done ++ front ++ rest) (hne : front ≠ [])
    (kind : TokenKind) (h : Tiles source (done ++ front).length placed) :
    Tiles source done.length ((done.length, ⟨kind, String.ofList front,
      (placeAt source done.length).line, (placeAt source done.length).column⟩) :: placed) := by
  have hlength : (String.ofList front).length = front.length := String.length_ofList
  refine ⟨Nat.le_refl _, ?_, ⟨?_, ?_, rfl, rfl⟩, ?_⟩
  · have nothing : (source.take done.length).drop done.length = [] := by simp
    rw [nothing]
    exact .nil
  · have behind : source.drop done.length = front ++ rest := by
      rw [hsource, List.append_assoc, List.drop_left]
    rw [behind, hlength, List.take_left]
    exact String.toList_ofList.symm
  · rw [hlength]
    exact List.length_pos_iff.mpr hne
  · rwa [List.length_append, ← hlength] at h

end Front

theorem Tiles.le {a : Nat} {placed : List (Nat × Token)} (h : Tiles source a placed) :
    ∀ p ∈ placed, a ≤ p.1 := by
  induction placed generalizing a with
  | nil =>
    intro p hp
    cases hp
  | cons p rest ih =>
    obtain ⟨o, t⟩ := p
    obtain ⟨hao, _, _, tiles⟩ := h
    intro q hq
    rcases List.mem_cons.mp hq with rfl | hq
    · exact hao
    · have later := ih tiles q hq
      omega

/-- No token is empty, so the offsets increase. -/
theorem Tiles.increasing {a : Nat} {placed : List (Nat × Token)} (h : Tiles source a placed) :
    (placed.map Prod.fst).Pairwise (· < ·) := by
  induction placed generalizing a with
  | nil => exact .nil
  | cons p rest ih =>
    obtain ⟨o, t⟩ := p
    obtain ⟨_, _, stands, tiles⟩ := h
    refine .cons ?_ (ih tiles)
    intro o' ho'
    obtain ⟨q, hq, rfl⟩ := List.mem_map.mp ho'
    have later := tiles.le q hq
    have hpos := stands.nonempty
    omega

end Tiles

namespace Scan

/-- Where a rule applies, the scan goes on behind what it takes. -/
theorem scanFrom_placed {source done lexeme rest : List Char} {r : Rule} (read : List Token)
    (hsource : source = done ++ lexeme ++ rest) (hrule : Rule.first? (lexeme ++ rest) = some r)
    (hextent : r.extent (lexeme ++ rest) = lexeme.length) :
    scanFrom read (placeAt source done.length) 0 (lexeme ++ rest) =
      scanFrom ((tokenOf? r (placeAt source done.length) lexeme).toList ++ read)
        (placeAt source (done ++ lexeme).length) 0 rest := by
  rw [← advance_placeAt hsource]
  exact scanFrom_rule hrule hextent _ _

/-- What a scan reads from a place on tiles the source from there, unless it fails: by induction on
the text that is left, of which every rule takes something. -/
theorem tiles_of_scanFrom {source : List Char} (cs done : List Char) (hsource : source = done ++ cs)
    (read : List Token) :
    ∃ placed : List (Nat × Token),
      (scanFrom read (placeAt source done.length) 0 cs).tokens =
        read.reverse ++ placed.map Prod.snd ∧
      ((scanFrom read (placeAt source done.length) 0 cs).error = none →
        Tiles source done.length placed) := by
  cases hcs : cs with
  | nil =>
    rw [hcs, List.append_nil] at hsource
    subst hsource
    refine ⟨[], by simp [scanFrom], fun _ => ⟨Nat.le_refl _, ?_⟩⟩
    rw [List.drop_length]
    exact .nil
  | cons c tail =>
    cases hrule : Rule.first? (c :: tail) with
    | none =>
      refine ⟨[], ?_, ?_⟩
      · simp [scanFrom, hrule]
      · simp [scanFrom, hrule]
    | some r =>
      have hpos := Rule.extent_pos_of_first? hrule
      rw [← hcs] at hrule hpos ⊢
      cases hkind : r.kind with
      | none =>
        obtain ⟨gap, rest, hsplit, hextent, hgap⟩ := Rule.gap_of_first? hrule hkind
        have hshorter : rest.length < cs.length := by
          rw [hsplit, List.length_append]
          omega
        rw [hsplit, ← List.append_assoc] at hsource
        rw [hsplit] at hrule hextent ⊢
        obtain ⟨placed, htokens, htiles⟩ := tiles_of_scanFrom rest (done ++ gap) hsource read
        have unread : (tokenOf? r (placeAt source done.length) gap).toList = [] := by
          simp [tokenOf?, hkind]
        rw [scanFrom_placed read hsource hrule hextent, unread, List.nil_append]
        exact ⟨placed, htokens, fun herror => (htiles herror).gap_front hsource hgap⟩
      | some kind =>
        obtain ⟨lexeme, rest, hsplit, hextent, _⟩ :=
          Rule.first?_again hrule (by rw [hkind]; simp)
        have hshorter : rest.length < cs.length := by
          rw [hsplit, List.length_append]
          omega
        have hne : lexeme ≠ [] := List.length_pos_iff.mp (hextent ▸ hpos)
        rw [hsplit, ← List.append_assoc] at hsource
        rw [hsplit] at hrule hextent ⊢
        let t : Token := ⟨kind, String.ofList lexeme, (placeAt source done.length).line,
          (placeAt source done.length).column⟩
        obtain ⟨placed, htokens, htiles⟩ :=
          tiles_of_scanFrom rest (done ++ lexeme) hsource (t :: read)
        have made : (tokenOf? r (placeAt source done.length) lexeme).toList = [t] := by
          simp [tokenOf?, hkind, t]
        rw [scanFrom_placed read hsource hrule hextent, made, List.singleton_append]
        refine ⟨(done.length, t) :: placed, ?_, fun herror => ?_⟩
        · rw [htokens, List.reverse_cons, List.append_assoc]
          rfl
        · exact (htiles herror).token_front hsource hne kind
termination_by cs.length

end Scan

/-- A source that is scanned to tokens is made of these, at increasing offsets that determine their
lines and columns, and of gaps of blanks and comments. A source that is not has, at the offset of
the error, the character and the place that the error names, and no rule applies there. -/
theorem tokens_tile_source (source : String) :
    (∀ tokens, tokenize source = .ok tokens → ∃ placed : List (Nat × Token),
      placed.map Prod.snd = tokens ∧ (placed.map Prod.fst).Pairwise (· < ·) ∧
        Tiles source.toList 0 placed) ∧
    (∀ e, tokenize source = .error e →
      source.toList[e.position.offset]? = some e.char ∧
        e.position = placeAt source.toList e.position.offset ∧
        ∀ r ∈ Rule.all, r.extent (source.toList.drop e.position.offset) = 0) := by
  constructor
  · intro tokens htokens
    have whole : source.toList = [] ++ source.toList := rfl
    obtain ⟨placed, hplaced, htiles⟩ := Scan.tiles_of_scanFrom source.toList [] whole []
    have scanned : Scan.scanFrom [] (placeAt source.toList 0) 0 source.toList = ⟨tokens, none⟩ :=
      tokenize_eq_ok_iff.mp htokens
    rw [List.length_nil, scanned] at hplaced htiles
    have tiles := htiles rfl
    exact ⟨placed, hplaced.symm, tiles.increasing, tiles⟩
  · intro e he
    have scanned : (scan source).error = some e := by
      rw [tokenize] at he
      rcases hs : scan source with ⟨tokens, _ | e'⟩ <;> rw [hs] at he <;> cases he
      rfl
    obtain ⟨pre, post, hsource, hrule, hposition⟩ := (Scan.standsIn source).2 e scanned
    have hoffset : e.position.offset = pre.length := by
      rw [hposition, Position.offset_advance]
      exact Nat.zero_add _
    have hlength : pre.length ≤ source.toList.length := by
      rw [hsource, List.length_append]
      omega
    refine ⟨?_, ?_, ?_⟩
    · rw [hoffset, hsource]
      simp
    · rw [hoffset, ← advance_take hlength, hposition, hsource, List.take_left]
    · intro r hr
      have none := List.find?_eq_none.mp hrule r hr
      rw [hoffset, hsource, List.drop_left]
      simpa using none

/-- A comment, a literal that goes on over a line feed and a token after it; and a character that no
rule takes, behind a gap of two lines. -/
theorem tokens_tile_source_lines :
    (tokenize "a // b\n\"x\ny\";" = .ok [⟨.identifier, "a", 1, 1⟩, ⟨.string, "\"x\ny\"", 2, 1⟩,
        ⟨.separator, ";", 3, 3⟩] ∧
      ∃ placed : List (Nat × Token), placed.map Prod.snd = [⟨.identifier, "a", 1, 1⟩,
          ⟨.string, "\"x\ny\"", 2, 1⟩, ⟨.separator, ";", 3, 3⟩] ∧
        (placed.map Prod.fst).Pairwise (· < ·) ∧ Tiles "a // b\n\"x\ny\";".toList 0 placed) ∧
    (tokenize "x\n @" = .error ⟨'@', ⟨3, 2, 2⟩⟩ ∧ "x\n @".toList[3]? = some '@' ∧
      ⟨3, 2, 2⟩ = placeAt "x\n @".toList 3 ∧
      ∀ r ∈ Rule.all, r.extent ("x\n @".toList.drop 3) = 0) := by
  have scanned : scan "a // b\n\"x\ny\";" = ⟨[⟨.identifier, "a", 1, 1⟩,
      ⟨.string, "\"x\ny\"", 2, 1⟩, ⟨.separator, ";", 3, 3⟩], none⟩ := by decide +kernel
  have tokens := tokenize_eq_ok_iff.mpr scanned
  have refused : scan "x\n @" = ⟨[⟨.identifier, "x", 1, 1⟩], some ⟨'@', ⟨3, 2, 2⟩⟩⟩ := by
    decide +kernel
  have error : tokenize "x\n @" = .error ⟨'@', ⟨3, 2, 2⟩⟩ := by rw [tokenize, refused]
  constructor
  · exact ⟨tokens, (tokens_tile_source _).1 _ tokens⟩
  · exact ⟨error, (tokens_tile_source _).2 _ error⟩

end ClassScript
