import ClassScript.Proofs.TokenOffsets
import Mathlib.Data.List.MinMax

/-!
# The first rule that applies takes the most

The rules are tried by priority, and the first that applies wins; how much the others would take is
never asked. A lexer that asks finds the same rule: of those that apply, the first takes as much as
any other, so the longest lexeme, with ties broken by priority, is the one that is taken.

Most rules are kept apart by the character they open with. Two of them share their opening: keywords
with identifiers, which take the whole word both, and comparisons with logical signs, where the
exclamation mark alone is the shorter one. The rules at the end of the list take a single character,
which is never more than what a rule before them takes.

The rules for words and numbers look ahead only, while a word also has to begin where none goes on.
The scan never comes to stand inside a word, so nothing is lost.
-/

namespace ClassScript

namespace Text

theorem isDigit_of_isNameStart {c : Char} (h : Rule.isNameStart c = true) : isDigit c = false := by
  rw [Rule.isNameStart, Bool.or_eq_true, beq_iff_eq] at h
  rcases h with rfl | h
  · decide
  · obtain ⟨_, hhi⟩ := toNat_of_isAlpha h
    have ascii : c.toNat < 128 := by omega
    simp [isDigit, digitValue?, ascii, not_isDigit_of_isAlpha h]

theorem not_isBlank_of_isWordChar {c : Char} (h : isWordChar c = true) : isBlank c = false := by
  by_contra hblank
  rw [isWordChar_of_isBlank (by simpa using hblank)] at h
  cases h

end Text

/-- No word goes on out of a gap: it ends with a blank, or with a comment that a line feed ends. -/
theorem Gap.severed {gap after : List Char} (h : Gap after gap) : Rule.Severed gap after := by
  induction h with
  | nil =>
    intro c hc
    cases hc
  | @blank c cs hc _ ih =>
    cases cs with
    | nil => exact Rule.severed_of_last [] (Text.isWordChar_of_isBlank hc)
    | cons d cs => exact fun e he => ih e he
  | @comment text cs _ hend _ ih =>
    cases cs with
    | nil =>
      intro c _ _
      cases after with
      | nil => rfl
      | cons d after =>
        have hd : d = '\n' := hend d rfl
        have hword : Text.isWordChar '\n' = false := by decide
        simpa [Rule.startsWord, hd] using hword
    | cons d cs =>
      intro e he
      rw [← List.cons_append, ← List.cons_append,
        List.getLast?_append_of_ne_nil _ (List.cons_ne_nil d cs)] at he
      exact ih e he

namespace Rule

/-- What a lexeme of more than one character can open with. -/
inductive Opening where
  | blank
  | letter
  | digit
  | slash
  | quote
  | sign
  deriving DecidableEq

def Opening.of (c : Char) : Opening :=
  if Text.isBlank c then .blank
  else if isNameStart c then .letter
  else if Text.isDigit c then .digit
  else if c = '/' then .slash
  else if c = '"' then .quote
  else .sign

/-- The rule applies only where a character of this sort comes first. -/
def Opens (r : Rule) (o : Opening) : Prop :=
  ∀ cs, r.extent cs ≠ 0 → ∃ c tail, cs = c :: tail ∧ Opening.of c = o

/-- Where the rule `a` applies, it takes at least as much as the rule `b`. -/
def Outruns (a b : Rule) : Prop :=
  ∀ cs, a.extent cs ≠ 0 → b.extent cs ≤ a.extent cs

theorem Opens.outruns {a b : Rule} {o o' : Opening} (ha : Opens a o) (hb : Opens b o')
    (hne : o ≠ o') : Outruns a b := by
  intro cs happlies
  by_cases hzero : b.extent cs = 0
  · omega
  · obtain ⟨c, tail, rfl, hc⟩ := ha cs happlies
    obtain ⟨c', tail', heq, hc'⟩ := hb _ hzero
    cases heq
    exact absurd (hc.symm.trans hc') hne

theorem Opening.of_word {c : Char} (hword : Text.isWordChar c = true) (hc : isNameStart c = true) :
    Opening.of c = .letter := by
  simp [Opening.of, Text.not_isBlank_of_isWordChar hword, hc]

theorem Opening.of_digit {c : Char} (hc : Text.isDigit c = true) : Opening.of c = .digit := by
  have hname : isNameStart c = false := by
    by_contra hname
    rw [Text.isDigit_of_isNameStart (by simpa using hname)] at hc
    cases hc
  have hblank := Text.not_isBlank_of_isWordChar (Text.isWordChar_of_isDigit hc)
  simp [Opening.of, hblank, hname, hc]

/-- A word at the front of a text that can be a name. -/
theorem opens_letter {cs : List Char} {c : Char} {rest : List Char} (hword : word cs = c :: rest)
    (hc : isNameStart c = true) : ∃ d tail, cs = d :: tail ∧ Opening.of d = .letter := by
  cases cs with
  | nil => cases hword
  | cons d tail =>
    rw [word, List.takeWhile_cons] at hword
    by_cases hd : Text.isWordChar d = true
    · rw [if_pos hd] at hword
      cases hword
      exact ⟨_, tail, rfl, Opening.of_word hd hc⟩
    · rw [if_neg hd] at hword
      cases hword

theorem opens_blanks : Opens ⟨none, blanks⟩ .blank := by
  intro cs happlies
  cases cs with
  | nil => exact absurd rfl happlies
  | cons c tail =>
    refine ⟨c, tail, rfl, ?_⟩
    by_cases hc : Text.isBlank c = true
    · simp [Opening.of, hc]
    · simp [blanks, hc] at happlies

theorem opens_comment : Opens ⟨none, comment⟩ .slash := by
  intro cs happlies
  change comment cs ≠ 0 at happlies
  unfold comment at happlies
  split at happlies
  · exact ⟨'/', _, rfl, by decide⟩
  · exact absurd rfl happlies

theorem opens_keyword : Opens ⟨some .keyword, keyword⟩ .letter := by
  intro cs happlies
  have hmem : String.ofList (word cs) ∈ keywords := by
    by_contra hnot
    exact happlies (if_neg (by simpa using hnot))
  have letters : ∀ text ∈ keywords, text.toList.head?.any isNameStart = true := by decide
  have hhead := letters _ hmem
  rw [String.toList_ofList] at hhead
  cases hword : word cs with
  | nil =>
    rw [hword] at hhead
    cases hhead
  | cons c rest =>
    rw [hword] at hhead
    exact opens_letter hword hhead

theorem opens_identifier : Opens ⟨some .identifier, identifier⟩ .letter := by
  intro cs happlies
  change identifier cs ≠ 0 at happlies
  rw [identifier] at happlies
  cases hword : word cs with
  | nil =>
    rw [hword] at happlies
    exact absurd rfl happlies
  | cons c rest =>
    rw [hword] at happlies
    by_cases hc : isNameStart c = true
    · exact opens_letter hword hc
    · simp [hc] at happlies

theorem opens_number : Opens ⟨some .number, number⟩ .digit := by
  intro cs happlies
  obtain ⟨hdigits, _⟩ := number_ne_zero_iff.mp happlies
  cases cs with
  | nil => exact absurd rfl hdigits
  | cons c tail =>
    refine ⟨c, tail, rfl, Opening.of_digit ?_⟩
    by_contra hc
    simp [hc] at hdigits

theorem opens_string : Opens ⟨some .string, string⟩ .quote := by
  intro cs happlies
  change string cs ≠ 0 at happlies
  unfold string at happlies
  split at happlies
  · exact ⟨'"', _, rfl, by decide⟩
  · exact absurd rfl happlies

theorem opens_comparison : Opens ⟨some .comparison, comparison⟩ .sign := by
  intro cs happlies
  change comparison cs ≠ 0 at happlies
  unfold comparison at happlies
  split at happlies
  case h_7 => exact absurd rfl happlies
  all_goals exact ⟨_, _, rfl, by decide⟩

theorem opens_logical : Opens ⟨some .logical, logical⟩ .sign := by
  intro cs happlies
  change logical cs ≠ 0 at happlies
  unfold logical at happlies
  split at happlies
  case h_4 => exact absurd rfl happlies
  all_goals exact ⟨_, _, rfl, by decide⟩

/-- Keywords and identifiers take the whole word. -/
theorem outruns_keyword : Outruns ⟨some .keyword, keyword⟩ ⟨some .identifier, identifier⟩ := by
  intro cs happlies
  change identifier cs ≤ keyword cs
  rw [keyword_eq_length happlies]
  by_cases hidentifier : identifier cs = 0
  · omega
  · rw [identifier_eq_length hidentifier]

/-- Of the two signs that open alike the comparison is the longer one. -/
theorem outruns_comparison : Outruns ⟨some .comparison, comparison⟩ ⟨some .logical, logical⟩ := by
  intro cs happlies
  change comparison cs ≠ 0 at happlies
  change logical cs ≤ comparison cs
  unfold comparison at happlies ⊢
  split
  case h_7 => simp_all
  case h_2 => exact (by decide : 1 ≤ 2)
  all_goals exact Nat.zero_le _

/-- The rules that can take more than one character, with what they open with. -/
def longRules : List (Rule × Opening) :=
  [(⟨none, blanks⟩, .blank), (⟨none, comment⟩, .slash), (⟨some .keyword, keyword⟩, .letter),
   (⟨some .identifier, identifier⟩, .letter), (⟨some .number, number⟩, .digit),
   (⟨some .string, string⟩, .quote), (⟨some .comparison, comparison⟩, .sign),
   (⟨some .logical, logical⟩, .sign)]

theorem opens_of_mem {p : Rule × Opening} (hp : p ∈ longRules) : Opens p.1 p.2 := by
  simp only [longRules, List.mem_cons, List.not_mem_nil, or_false] at hp
  rcases hp with rfl | rfl | rfl | rfl | rfl | rfl | rfl | rfl
  · exact opens_blanks
  · exact opens_comment
  · exact opens_keyword
  · exact opens_identifier
  · exact opens_number
  · exact opens_string
  · exact opens_comparison
  · exact opens_logical

theorem outruns_longRules : (longRules.map Prod.fst).Pairwise Outruns := by
  rw [List.pairwise_map]
  have apart : longRules.Pairwise fun p q => p.2 ≠ q.2 ∨ Outruns p.1 q.1 := by
    simp [longRules, outruns_keyword, outruns_comparison]
  refine apart.imp_of_mem fun hp hq h => ?_
  rcases h with hne | houtruns
  · exact (opens_of_mem hp).outruns (opens_of_mem hq) hne
  · exact houtruns

theorem oneOf_le_one (set cs : List Char) : oneOf set cs ≤ 1 := by
  unfold oneOf
  split
  · split <;> omega
  · omega

/-- The other rules take one character. -/
theorem outruns_single {b : Rule} (hb : b ∈ all.drop 8) (a : Rule) : Outruns a b := by
  intro cs happlies
  have single : b.extent cs ≤ 1 := by
    simp only [all, List.drop_succ_cons, List.drop_zero, List.mem_cons, List.not_mem_nil,
      or_false] at hb
    rcases hb with rfl | rfl | rfl | rfl | rfl | rfl | rfl | rfl | rfl
    all_goals exact oneOf_le_one _ cs
  omega

/-- A rule that applies takes at least as much as any rule after it. -/
theorem outruns_all : all.Pairwise Outruns := by
  have parts : all = longRules.map Prod.fst ++ all.drop 8 := rfl
  rw [parts, List.pairwise_append]
  refine ⟨outruns_longRules, ?_, fun a _ b hb => outruns_single hb a⟩
  exact List.pairwise_of_forall_mem_list fun a _ b hb => outruns_single hb a

/-- The rule that wins takes at least as much as any other. -/
theorem extent_le_of_first? {cs : List Char} {r : Rule} (h : first? cs = some r) {a : Rule}
    (ha : a ∈ all) : a.extent cs ≤ r.extent cs := by
  obtain ⟨_, before, behind, hall, hbefore⟩ := List.find?_eq_some_iff_append.mp h
  have hpos := extent_pos_of_first? h
  have hordered := outruns_all
  rw [hall, List.pairwise_append, List.pairwise_cons] at hordered
  rw [hall] at ha
  rcases List.mem_append.mp ha with ha | ha
  · have hzero : a.extent cs = 0 := by simpa using hbefore a ha
    omega
  · rcases List.mem_cons.mp ha with rfl | ha
    · omega
    · exact hordered.2.1.1 a ha cs (by omega)

/-- Of the rules that apply the one that takes the most, and the first of those where several take
as much. -/
def longest? (cs : List Char) : Option Rule :=
  (all.filter fun r => r.extent cs != 0).argmax fun r => r.extent cs

theorem longest?_eq_first? (cs : List Char) : longest? cs = first? cs := by
  have hfirst : first? cs = (all.filter fun r => r.extent cs != 0).head? :=
    List.head?_filter.symm
  rw [longest?]
  cases happlying : all.filter fun r => r.extent cs != 0 with
  | nil =>
    rw [happlying] at hfirst
    exact hfirst.symm
  | cons r rest =>
    rw [happlying] at hfirst
    rw [hfirst, List.head?_cons, List.argmax_cons]
    cases hmax : rest.argmax fun r => r.extent cs with
    | none => rfl
    | some a =>
      have hrest : a ∈ r :: rest := List.mem_cons_of_mem r (List.argmax_mem hmax)
      rw [← happlying] at hrest
      have hle := extent_le_of_first? hfirst (List.mem_of_mem_filter hrest)
      exact if_neg (by omega)

/-- The rule that wins takes a lexeme out of which no word goes on. -/
theorem exists_lexeme {cs : List Char} {r : Rule} (h : first? cs = some r) :
    ∃ lexeme rest, cs = lexeme ++ rest ∧ r.extent cs = lexeme.length ∧ Severed lexeme rest := by
  cases hkind : r.kind with
  | none =>
    obtain ⟨gap, rest, hsplit, hextent, hgap⟩ := gap_of_first? h hkind
    exact ⟨gap, rest, hsplit, hextent, hgap.severed⟩
  | some kind =>
    have happlies : r.extent cs ≠ 0 := Nat.pos_iff_ne_zero.mp (extent_pos_of_first? h)
    have hmakes : r.kind ≠ none := by rw [hkind]; simp
    obtain ⟨lexeme, rest, hsplit, hextent, hsevered, _⟩ :=
      repeats_of_mem (List.mem_of_find?_eq_some h) hmakes happlies
    exact ⟨lexeme, rest, hsplit, hextent, hsevered⟩

theorem severed_of_first? {lexeme rest : List Char} {r : Rule}
    (h : first? (lexeme ++ rest) = some r) (hextent : r.extent (lexeme ++ rest) = lexeme.length) :
    Severed lexeme rest := by
  obtain ⟨lexeme', rest', hsplit, hextent', hsevered⟩ := exists_lexeme h
  have hlen : lexeme.length = lexeme'.length := hextent.symm.trans hextent'
  obtain ⟨rfl, rfl⟩ := List.append_inj hsplit hlen
  exact hsevered

end Rule

namespace Scan

/-- The scan of `taken ++ rest` comes to stand at `rest`: one rule after the other, always the first
that applies, takes what is in front of it. -/
inductive Arrives : List Char → List Char → Prop
  | start (rest : List Char) : Arrives [] rest
  | step {r : Rule} {lexeme taken rest : List Char} :
    Rule.first? (lexeme ++ (taken ++ rest)) = some r →
    r.extent (lexeme ++ (taken ++ rest)) = lexeme.length →
    Arrives taken rest → Arrives (lexeme ++ taken) rest

/-- The scan never stands inside a word. -/
theorem Arrives.severed {taken rest : List Char} (h : Arrives taken rest) :
    Rule.Severed taken rest := by
  induction h with
  | start rest =>
    intro c hc
    cases hc
  | @step r lexeme taken rest hfirst hextent _ ih =>
    cases taken with
    | nil =>
      rw [List.append_nil]
      exact Rule.severed_of_first? hfirst hextent
    | cons c taken =>
      intro d hd
      rw [List.getLast?_append_of_ne_nil _ (List.cons_ne_nil c taken)] at hd
      exact ih d hd

/-- What a lexer reads that always takes the longest lexeme. -/
def munch (p : Position) (cs : List Char) : Scan :=
  match cs with
  | [] => ⟨[], none⟩
  | c :: tail =>
    match _h : Rule.longest? (c :: tail) with
    | none => ⟨[], some ⟨c, p⟩⟩
    | some r =>
      let lexeme := (c :: tail).take (r.extent (c :: tail))
      let after := munch (p.advance lexeme) ((c :: tail).drop (r.extent (c :: tail)))
      ⟨(tokenOf? r p lexeme).toList ++ after.tokens, after.error⟩
termination_by cs.length
decreasing_by
  have hpos := Rule.extent_pos_of_first? ((Rule.longest?_eq_first? _).symm.trans _h)
  rw [List.length_drop, List.length_cons]
  omega

/-- The scan reads what the lexer reads that takes the longest lexeme, behind what it has read. -/
theorem scanFrom_eq_munch (read : List Token) (p : Position) (cs : List Char) :
    scanFrom read p 0 cs = ⟨read.reverse ++ (munch p cs).tokens, (munch p cs).error⟩ := by
  fun_induction munch p cs generalizing read with
  | case1 p => simp [scanFrom]
  | case2 p c tail hnone =>
    rw [Rule.longest?_eq_first?] at hnone
    simp [scanFrom, hnone]
  | case3 p c tail r hrule lexeme after ih =>
    rw [Rule.longest?_eq_first?] at hrule
    obtain ⟨taken, rest, hsplit, hextent, _⟩ := Rule.exists_lexeme hrule
    have hlexeme : lexeme = taken := by
      change (c :: tail).take (r.extent (c :: tail)) = taken
      rw [hextent, hsplit, List.take_left]
    have hrest : (c :: tail).drop (r.extent (c :: tail)) = rest := by
      rw [hextent, hsplit, List.drop_left]
    have step := scanFrom_rule (hsplit ▸ hrule) (hsplit ▸ hextent) read p
    rw [hrest, hlexeme] at ih
    rw [hsplit, step, ih]
    simp only [after, hlexeme, hrest, List.reverse_append]
    cases tokenOf? r p taken <;> simp

end Scan

/-- The tokens of a source for a lexer that always takes the longest lexeme. -/
def tokenizeLongest (source : String) : Except LexError (List Token) :=
  match Scan.munch .start source.toList with
  | ⟨tokens, none⟩ => .ok tokens
  | ⟨_, some e⟩ => .error e

/-- Wherever the scan of a source comes to stand, which is never inside a word, the first rule that
applies takes at least as much as any other rule would. So a lexer that compares the lengths and
breaks ties by priority reads the same tokens, or ends with the same error. -/
theorem first_rule_is_longest (source : String) :
    (∀ taken rest, source.toList = taken ++ rest → Scan.Arrives taken rest →
      Rule.Severed taken rest ∧
        ∀ r, Rule.first? rest = some r → ∀ a ∈ Rule.all, a.extent rest ≤ r.extent rest) ∧
    tokenizeLongest source = tokenize source := by
  constructor
  · intro taken rest _ harrives
    exact ⟨harrives.severed, fun r hfirst a ha => Rule.extent_le_of_first? hfirst ha⟩
  · have scanned : Scan.munch .start source.toList = scan source := by
      have whole := Scan.scanFrom_eq_munch [] .start source.toList
      rw [List.reverse_nil, List.nil_append] at whole
      exact whole.symm
    rcases hscan : scan source with ⟨tokens, _ | e⟩
    · simp only [tokenizeLongest, tokenize, scanned, hscan]
    · simp only [tokenizeLongest, tokenize, scanned, hscan]

/-- Behind the name the scan stands at an exclamation mark, where two rules apply; the comparison
takes both signs. -/
theorem first_rule_is_longest_signs :
    Scan.Arrives ['x'] "!=1.5//".toList ∧
    Rule.first? "!=1.5//".toList = some ⟨some .comparison, Rule.comparison⟩ ∧
    Rule.Severed ['x'] "!=1.5//".toList ∧
    (∀ a ∈ Rule.all, a.extent "!=1.5//".toList ≤ 2) ∧
    tokenizeLongest "x!=1.5//" = tokenize "x!=1.5//" := by
  have arrives : Scan.Arrives (['x'] ++ []) "!=1.5//".toList :=
    .step (r := ⟨some .identifier, Rule.identifier⟩) rfl rfl (.start _)
  have first : Rule.first? "!=1.5//".toList = some ⟨some .comparison, Rule.comparison⟩ := rfl
  obtain ⟨stands, same⟩ := first_rule_is_longest "x!=1.5//"
  obtain ⟨severed, longest⟩ := stands ['x'] "!=1.5//".toList rfl arrives
  exact ⟨arrives, first, severed, longest _ first, same⟩

end ClassScript
