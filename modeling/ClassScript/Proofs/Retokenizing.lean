import ClassScript.Proofs.Lexemes
import ClassScript.Proofs.Places

/-!
# Lexemes make the same tokens again

The lexemes of a source, laid out anew with blanks between them, are scanned to the same tokens.
Which blanks, and how many, makes no difference; only the places of the tokens change.
-/

namespace ClassScript

namespace Scan

/-- Where a rule takes a lexeme, the scan goes on behind it. -/
theorem scanFrom_rule {r : Rule} {lexeme rest : List Char}
    (hrule : Rule.first? (lexeme ++ rest) = some r)
    (hextent : r.extent (lexeme ++ rest) = lexeme.length) (read : List Token) (p : Position) :
    scanFrom read p 0 (lexeme ++ rest) =
      scanFrom ((tokenOf? r p lexeme).toList ++ read) (p.advance lexeme) 0 rest := by
  have hpos := Rule.extent_pos_of_first? hrule
  rw [hextent] at hpos
  cases lexeme with
  | nil => cases hpos
  | cons c lexeme =>
    rw [List.cons_append] at hrule hextent ⊢
    rw [scanFrom, hrule]
    dsimp only
    rw [hextent, scanFrom_skip, ← List.cons_append, List.take_left, List.length_cons,
      Nat.add_sub_cancel, List.take_left, List.drop_left]
    rfl

/-- Blanks make no token. -/
theorem scanFrom_blanks {gap rest : List Char} (hgap : ∀ c ∈ gap, Text.isBlank c = true)
    (hrest : ∀ c ∈ rest.head?, Text.isBlank c = false) (read : List Token) (p : Position) :
    scanFrom read p 0 (gap ++ rest) = scanFrom read (p.advance gap) 0 rest := by
  cases gap with
  | nil => rfl
  | cons c gap =>
    have hfirst := Rule.first?_of_blank (hgap c List.mem_cons_self) (gap ++ rest)
    have hextent : Rule.blanks (c :: gap ++ rest) = (c :: gap).length := by
      rw [Rule.blanks, List.takeWhile_append_of_pos hgap, (Rule.takeWhile_of_head hrest).1,
        List.append_nil]
    exact scanFrom_rule (r := ⟨none, Rule.blanks⟩) hfirst hextent read p

end Scan

/-- The characters of lexemes, each with a gap behind it. -/
def spaced (ts : List Token) (gaps : List (List Char)) : List Char :=
  (List.zipWith (fun t gap => t.text.toList ++ gap) ts gaps).flatten

theorem head_spaced {ts : List Token} (hts : ∀ t ∈ ts, IsLexeme t.kind t.text.toList)
    (gaps : List (List Char)) : ∀ c ∈ (spaced ts gaps).head?, Text.isBlank c = false := by
  rcases ts with _ | ⟨t, ts⟩
  · simp [spaced]
  rcases gaps with _ | ⟨gap, gaps⟩
  · simp [spaced]
  have ht := hts t List.mem_cons_self
  cases htext : t.text.toList with
  | nil => exact absurd htext ht.ne_nil
  | cons d text =>
    intro c hc
    rw [htext] at ht
    simp only [spaced, List.zipWith_cons_cons, List.flatten_cons, htext, List.cons_append,
      List.head?_cons, Option.mem_def, Option.some.injEq] at hc
    rw [← hc]
    exact ht.not_blank

theorem scanFrom_spaced {ts : List Token} {gaps : List (List Char)}
    (hts : ∀ t ∈ ts, IsLexeme t.kind t.text.toList) (hlen : gaps.length = ts.length)
    (hblank : ∀ gap ∈ gaps, ∀ c ∈ gap, Text.isBlank c = true) (hgaps : [] ∉ gaps.dropLast)
    (read : List Token) (p : Position) :
    ∃ us, Scan.scanFrom read p 0 (spaced ts gaps) = ⟨read.reverse ++ us, none⟩ ∧
      us.map Token.face = ts.map Token.face := by
  induction ts generalizing gaps read p with
  | nil => exact ⟨[], by simp [spaced, Scan.scanFrom], rfl⟩
  | cons t ts ih =>
    rcases gaps with _ | ⟨gap, gaps⟩
    · cases hlen
    have hts' : ∀ t ∈ ts, IsLexeme t.kind t.text.toList :=
      fun u hu => hts u (List.mem_cons_of_mem t hu)
    have hlen' : gaps.length = ts.length := Nat.succ.inj hlen
    have hbounded : Rule.Bounded (gap ++ spaced ts gaps) := by
      rcases gap with _ | ⟨b, gap⟩
      -- only the last gap may be empty
      · rcases gaps with _ | ⟨gap', gaps⟩
        · cases ts with
          | nil => simp [spaced, Rule.Bounded]
          | cons => cases hlen'
        · exact absurd List.mem_cons_self hgaps
      · intro c hc
        cases hc
        exact hblank _ List.mem_cons_self b List.mem_cons_self
    have hgaps' : [] ∉ gaps.dropLast := by
      cases gaps with
      | nil => simp
      | cons => exact fun hmem => hgaps (List.mem_cons_of_mem _ hmem)
    obtain ⟨r, hfirst, hkind, hextent⟩ := (hts t List.mem_cons_self).again hbounded
    have hsplit : spaced (t :: ts) (gap :: gaps) = t.text.toList ++ (gap ++ spaced ts gaps) := by
      simp [spaced]
    obtain ⟨us, hscan, hfaces⟩ := ih hts' hlen' (fun g hg => hblank g (List.mem_cons_of_mem _ hg))
      hgaps' (⟨t.kind, t.text, p.line, p.column⟩ :: read)
      ((p.advance t.text.toList).advance gap)
    refine ⟨⟨t.kind, t.text, p.line, p.column⟩ :: us, ?_, ?_⟩
    · rw [hsplit, Scan.scanFrom_rule hfirst hextent,
        Scan.scanFrom_blanks (hblank gap List.mem_cons_self) (head_spaced hts' gaps)]
      simp only [Scan.tokenOf?, hkind, Option.map_some, Option.toList_some, String.ofList_toList,
        List.singleton_append]
      rw [hscan]
      simp
    · rw [List.map_cons, List.map_cons, hfaces]
      rfl

theorem toList_join_spaced (ts : List Token) (gaps : List String) :
    (String.join (List.zipWith (fun t gap => t.text ++ gap) ts gaps)).toList =
      spaced ts (gaps.map String.toList) := by
  rw [String.toList_join, spaced, List.zipWith_map_right, List.flatMap_def, List.map_zipWith]
  simp only [String.toList_append]

theorem tokenize_eq_ok_iff {source : String} {ts : List Token} :
    tokenize source = .ok ts ↔ scan source = ⟨ts, none⟩ := by
  rw [tokenize]
  rcases scan source with ⟨tokens, _ | e⟩ <;> simp

/-- The lexemes of a source with gaps of blanks behind them, none of which is empty but perhaps the
last, and blanks in front of them, are scanned to tokens of the same kinds and texts. -/
theorem tokenize_spaced {source : String} {ts : List Token} (hts : tokenize source = .ok ts)
    {lead : String} {gaps : List String} (hlen : gaps.length = ts.length)
    (hblank : ∀ gap ∈ lead :: gaps, ∀ c ∈ gap.toList, Text.isBlank c = true)
    (hgaps : "" ∉ gaps.dropLast) :
    ∃ us, tokenize (lead ++ String.join (List.zipWith (fun t gap => t.text ++ gap) ts gaps)) =
        .ok us ∧ us.map Token.face = ts.map Token.face := by
  have lexemes : ∀ t ∈ ts, IsLexeme t.kind t.text.toList := by
    intro t ht
    refine ((Scan.standsIn source).1 t ?_).isLexeme
    rwa [tokenize_eq_ok_iff.mp hts]
  have hblank' : ∀ gap ∈ gaps.map String.toList, ∀ c ∈ gap, Text.isBlank c = true := by
    intro gap hgap
    obtain ⟨g, hg, rfl⟩ := List.mem_map.mp hgap
    exact hblank g (List.mem_cons_of_mem _ hg)
  have hgaps' : [] ∉ (gaps.map String.toList).dropLast := by
    rw [← List.map_dropLast]
    intro hmem
    obtain ⟨g, hg, hnil⟩ := List.mem_map.mp hmem
    rw [String.toList_eq_nil_iff] at hnil
    exact hgaps (hnil ▸ hg)
  obtain ⟨us, hscan, hfaces⟩ := scanFrom_spaced lexemes (by simpa using hlen) hblank' hgaps' []
    (Position.start.advance lead.toList)
  refine ⟨us, ?_, hfaces⟩
  rw [tokenize, scan, String.toList_append, toList_join_spaced,
    Scan.scanFrom_blanks (hblank lead List.mem_cons_self) (head_spaced lexemes _), hscan]
  rfl

/-- A fraction in front of a second point, a sign that begins another, and a literal with a quote
in it, laid out with line separators and a no-break space. -/
theorem tokenize_spaced_symbols :
    tokenize "x1=1.5.6!=\"\\\"\"//" = .ok [⟨.identifier, "x1", 1, 1⟩, ⟨.assign, "=", 1, 3⟩,
      ⟨.number, "1.5", 1, 4⟩, ⟨.dot, ".", 1, 7⟩, ⟨.number, "6", 1, 8⟩, ⟨.comparison, "!=", 1, 9⟩,
      ⟨.string, "\"\\\"\"", 1, 11⟩] ∧
    ∃ us, tokenize "\n x1 =\u20281.5\u00a0.\n6\n\n!=\t\"\\\"\"" = .ok us ∧
      us.map Token.face = [(.identifier, "x1"), (.assign, "="), (.number, "1.5"), (.dot, "."),
        (.number, "6"), (.comparison, "!="), (.string, "\"\\\"\"")] := by
  have scanned : scan "x1=1.5.6!=\"\\\"\"//" = ⟨[⟨.identifier, "x1", 1, 1⟩, ⟨.assign, "=", 1, 3⟩,
      ⟨.number, "1.5", 1, 4⟩, ⟨.dot, ".", 1, 7⟩, ⟨.number, "6", 1, 8⟩, ⟨.comparison, "!=", 1, 9⟩,
      ⟨.string, "\"\\\"\"", 1, 11⟩], none⟩ := by decide +kernel
  have tokens := tokenize_eq_ok_iff.mpr scanned
  refine ⟨tokens, ?_⟩
  have blank : ∀ gap ∈ "\n " :: [" ", "\u2028", "\u00a0", "\n", "\n\n", "\t", ""],
      ∀ c ∈ gap.toList, Text.isBlank c = true := by
    intro gap hgap
    refine List.all_eq_true.mp ?_
    revert gap
    decide
  obtain ⟨us, hus, hfaces⟩ := tokenize_spaced tokens rfl blank (by decide)
  exact ⟨us, hus, hfaces⟩

end ClassScript
