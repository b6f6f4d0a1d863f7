import ClassScript.Proofs.MaximalMunch

/-!
# A lexical error leaves a clean prefix

Where a scan stops at a character that no rule takes, the text in front of that character is scanned
without an error, to the tokens that had been read when the scan stopped.

This is not clear at once, since a rule may look further than it takes. A word has to end, a sign
may be the beginning of another, and a number looks behind a point for a fraction. The cut is where
no word goes on and where no sign stands, so the first two see the same. A number that has been
refused its fraction is the one that looked past the cut: the digits behind the point run on into a
word, as in `12.5x`, so that the scan stops right behind the point, and with the rest cut off there
is no digit left to make a fraction.
-/

namespace ClassScript

namespace Rule

variable {lexeme taken rest : List Char}

theorem startsWord_of_append (h : startsWord (taken ++ rest) = false) :
    startsWord taken = false := by
  cases taken with
  | nil => rfl
  | cons c taken => exact h

theorem Severed.of_append (h : Severed lexeme (taken ++ rest)) : Severed lexeme taken :=
  fun c hc hword => startsWord_of_append (h c hc hword)

/-- A rule that peeks at two characters does not start to apply when a text is cut off. -/
theorem Peeks.of_append {f : List Char → Nat} (hf : Peeks f) (hne : lexeme ≠ [])
    (hzero : f (lexeme ++ rest) = 0) : f lexeme = 0 := by
  rcases lexeme with _ | ⟨c, _ | ⟨d, lexeme⟩⟩
  · exact absurd rfl hne
  · exact hf.single hzero (by simp [Bounded])
  · exact hf.pair hzero _

/-- A run that is taken as a whole ends where its sort of character does. -/
theorem run_of_length {p : Char → Bool}
    (h : ((lexeme ++ rest).takeWhile p).length = lexeme.length) :
    (∀ c ∈ lexeme, p c = true) ∧ ∀ c ∈ rest.head?, p c = false := by
  have hfront : (lexeme ++ rest).takeWhile p = lexeme := by
    have hsplit := List.takeWhile_append_dropWhile (p := p) (l := lexeme ++ rest)
    exact (List.append_inj hsplit h).1
  have hrun : ∀ c ∈ lexeme, p c = true := by
    intro c hc
    rw [← hfront] at hc
    exact List.all_eq_true.mp List.all_takeWhile c hc
  refine ⟨hrun, fun c hc => ?_⟩
  cases rest with
  | nil => cases hc
  | cons d rest =>
    cases hc
    by_contra hd
    rw [List.takeWhile_append_of_pos hrun, List.takeWhile_cons, if_pos (by simpa using hd),
      List.length_append, List.length_cons] at h
    omega

theorem head_of_append {P : Char → Prop} (h : ∀ c ∈ (taken ++ rest).head?, P c) :
    ∀ c ∈ taken.head?, P c := by
  cases taken with
  | nil => simp
  | cons c taken => exact h

theorem mem_of_oneOf {set cs : List Char} {c : Char} (h : oneOf set (c :: cs) ≠ 0) : c ∈ set := by
  by_contra hnot
  exact h (if_neg (by simpa using hnot))

/-- At a digit only the rule for numbers can apply. -/
theorem eq_number_of_digit {r : Rule} (hr : r ∈ all) {c : Char} (hc : Text.isDigit c = true)
    {cs : List Char} (h : r.extent (c :: cs) ≠ 0) : r = ⟨some .number, number⟩ := by
  have parts : all = longRules.map Prod.fst ++ all.drop 8 := rfl
  rw [parts] at hr
  rcases List.mem_append.mp hr with hlong | hsingle
  · obtain ⟨p, hp, rfl⟩ := List.mem_map.mp hlong
    obtain ⟨d, tail, heq, hopening⟩ := opens_of_mem hp _ h
    cases heq
    rw [Opening.of_digit hc] at hopening
    have unique : ∀ q ∈ longRules, Opening.digit = q.2 → q.1 = ⟨some .number, number⟩ := by
      simp [longRules]
    exact unique p hp hopening
  · exfalso
    have plain {set : List Char} (hset : set.all (fun d => !Text.isDigit d) = true) :
        oneOf set (c :: cs) = 0 := by
      by_contra happlies
      have hnot := List.all_eq_true.mp hset c (mem_of_oneOf happlies)
      rw [hc] at hnot
      cases hnot
    simp only [all, List.drop_succ_cons, List.drop_zero, List.mem_cons, List.not_mem_nil,
      or_false] at hsingle
    rcases hsingle with rfl | rfl | rfl | rfl | rfl | rfl | rfl | rfl | rfl
    all_goals exact h (plain (by decide))

/-- Digits that run on into a word are taken by no rule. -/
theorem first?_of_digits {cs : List Char} (hdigits : cs.takeWhile Text.isDigit ≠ [])
    (hword : startsWord (cs.dropWhile Text.isDigit) = true) : first? cs = none := by
  cases cs with
  | nil => exact absurd rfl hdigits
  | cons c tail =>
    have hc : Text.isDigit c = true := by
      by_contra hc
      simp [hc] at hdigits
    refine List.find?_eq_none.mpr fun r hr happlies => ?_
    have happlies' : r.extent (c :: tail) ≠ 0 := by simpa using happlies
    rw [eq_number_of_digit hr hc happlies'] at happlies'
    rw [(number_ne_zero_iff.mp happlies').2] at hword
    cases hword

/-- Digits without a fraction stand alone when the text is cut off behind them. Had a digit been
left behind the point, the fraction would have been refused for a word that the digits run on into,
and no rule would apply at these digits. -/
theorem number_whole_of_append (hne : lexeme ≠ []) (hdigits : ∀ c ∈ lexeme, Text.isDigit c = true)
    (hstop : startsWord (taken ++ rest) = false)
    (hwhole : ∀ ds, taken ++ rest = '.' :: ds →
      ds.takeWhile Text.isDigit = [] ∨ startsWord (ds.dropWhile Text.isDigit) = true)
    (hpoint : ∀ ds, taken = '.' :: ds → ds ≠ [] → first? (ds ++ rest) ≠ none) :
    number (lexeme ++ taken) = lexeme.length := by
  refine number_whole hne hdigits (startsWord_of_append hstop) fun ds hds => ?_
  subst hds
  cases ds with
  | nil => exact Or.inl rfl
  | cons d ds =>
    by_cases hd : Text.isDigit d = true
    · exfalso
      have hdigits' : (d :: ds ++ rest).takeWhile Text.isDigit ≠ [] := by simp [hd]
      rcases hwhole (d :: ds ++ rest) rfl with hempty | hword
      · exact hdigits' hempty
      · exact hpoint (d :: ds) rfl (by simp) (first?_of_digits hdigits' hword)
    · exact Or.inl (by simp [hd])

/-- A number is taken again when the text is cut off behind it, unless the cut is inside digits
behind its point that no rule takes. -/
theorem number_of_append (hne : lexeme ≠ [])
    (h : number (lexeme ++ (taken ++ rest)) = lexeme.length)
    (hpoint : ∀ ds, taken = '.' :: ds → ds ≠ [] → first? (ds ++ rest) ≠ none) :
    number (lexeme ++ taken) = lexeme.length := by
  have happlies : number (lexeme ++ (taken ++ rest)) ≠ 0 := by
    rw [h]
    exact fun hzero => hne (List.length_eq_zero_iff.mp hzero)
  obtain ⟨hsome, hstop⟩ := number_ne_zero_iff.mp happlies
  rcases number_cases happlies with ⟨hlen, hwhole⟩ |
    ⟨fraction, after, hsplit, hne', hfraction, hafter, hlen⟩
  · obtain ⟨hdigits, hhead⟩ := run_of_length (hlen.symm.trans h)
    obtain ⟨_, hdrop⟩ := takeRun hdigits hhead
    rw [hdrop] at hstop hwhole
    exact number_whole_of_append hne hdigits hstop hwhole hpoint
  · have hdigits : ∀ c ∈ (lexeme ++ (taken ++ rest)).takeWhile Text.isDigit,
        Text.isDigit c = true := List.all_eq_true.mp List.all_takeWhile
    generalize (lexeme ++ (taken ++ rest)).takeWhile Text.isDigit = digits at *
    rw [h] at hlen
    have hsplit' : lexeme ++ (taken ++ rest) = (digits ++ '.' :: fraction) ++ after := by
      simpa using hsplit
    have hlen' : lexeme.length = (digits ++ '.' :: fraction).length := by
      rw [hlen, List.length_append, List.length_cons]
      omega
    obtain ⟨rfl, rfl⟩ := List.append_inj hsplit' hlen'
    rw [List.append_assoc, List.cons_append,
      number_fraction hsome hne' hdigits hfraction (startsWord_of_append hafter), hlen]

theorem blanks_of_append (h : blanks (lexeme ++ (taken ++ rest)) = lexeme.length) :
    blanks (lexeme ++ taken) = lexeme.length := by
  obtain ⟨hrun, hhead⟩ := run_of_length h
  rw [blanks, (takeRun hrun (head_of_append hhead)).1]

theorem comment_of_append (hne : lexeme ≠ [])
    (h : comment (lexeme ++ (taken ++ rest)) = lexeme.length) :
    comment (lexeme ++ taken) = lexeme.length := by
  rcases lexeme with _ | ⟨c, _ | ⟨d, text⟩⟩
  · exact absurd rfl hne
  · exfalso
    unfold comment at h
    split at h
    · rw [List.length_singleton] at h
      omega
    · cases h
  · unfold comment at h
    split at h
    · rename_i cs heq
      cases heq
      have hlen : ((text ++ (taken ++ rest)).takeWhile (· != '\n')).length = text.length := by
        change 2 + ((text ++ (taken ++ rest)).takeWhile (· != '\n')).length = text.length + 2 at h
        omega
      obtain ⟨hrun, hhead⟩ := run_of_length hlen
      change 2 + ((text ++ taken).takeWhile (· != '\n')).length = text.length + 2
      rw [(takeRun hrun (head_of_append hhead)).1]
      omega
    · cases h

/-- A literal ends with its closing quote, whatever follows. -/
theorem string_append (hne : lexeme ≠ []) (h : string (lexeme ++ rest) = lexeme.length)
    (after : List Char) : string (lexeme ++ after) = lexeme.length := by
  cases lexeme with
  | nil => exact absurd rfl hne
  | cons c text =>
    rw [List.cons_append] at h
    unfold string at h
    split at h
    · rename_i cs heq
      cases heq
      cases hbody : stringBody (text ++ rest) with
      | none =>
        rw [hbody] at h
        cases h
      | some n =>
        rw [hbody] at h
        obtain ⟨body, rest', hsplit, rfl, hagain⟩ := stringBody_spec hbody
        have hsplit' : text ++ rest = (body ++ ['"']) ++ rest' := by simpa using hsplit
        have hlen : text.length = (body ++ ['"']).length := by
          rw [List.length_append, List.length_singleton]
          exact (Nat.succ.inj h).symm
        obtain ⟨rfl, rfl⟩ := List.append_inj hsplit' hlen
        have again := hagain after
        simp [string, again]
    · cases h

/-- A rule that decides by the first two characters takes the same when the text is cut off behind
what it takes. -/
theorem pair_of_append {f : List Char → Nat}
    (hpair : ∀ c d cs ds, f (c :: d :: cs) = f (c :: d :: ds))
    (hsingle : ∀ c cs, f (c :: cs) = 1 → f [c] = 1) (hne : lexeme ≠ [])
    (h : f (lexeme ++ (taken ++ rest)) = lexeme.length) : f (lexeme ++ taken) = lexeme.length := by
  rcases lexeme with _ | ⟨c, _ | ⟨d, text⟩⟩
  · exact absurd rfl hne
  · cases taken with
    | nil => exact hsingle c rest h
    | cons d taken => exact (hpair c d taken (taken ++ rest)).trans h
  · exact (hpair c d (text ++ taken) (text ++ (taken ++ rest))).trans h

theorem comparison_pair (c d : Char) (cs ds : List Char) :
    comparison (c :: d :: cs) = comparison (c :: d :: ds) := by
  by_cases hd : d = '='
  · subst hd
    unfold comparison
    split
    case h_5 hnot heq => exact absurd (List.cons.inj heq).2.symm (hnot cs)
    case h_6 hnot heq => exact absurd (List.cons.inj heq).2.symm (hnot cs)
    all_goals simp_all
  · have hnext (tail : List Char) : ∀ tail', d :: tail ≠ '=' :: tail' :=
      fun tail' heq => hd (List.cons.inj heq).1
    rw [comparison_cons (hnext cs), comparison_cons (hnext ds)]

theorem comparison_single (c : Char) (cs : List Char) (h : comparison (c :: cs) = 1) :
    comparison [c] = 1 := by
  unfold comparison at h
  split at h
  case h_5 _ heq => cases heq; rfl
  case h_6 _ heq => cases heq; rfl
  all_goals cases h

theorem logical_pair (c d : Char) (cs ds : List Char) :
    logical (c :: d :: cs) = logical (c :: d :: ds) := by
  unfold logical
  split <;> simp_all

theorem logical_single (c : Char) (cs : List Char) (h : logical (c :: cs) = 1) :
    logical [c] = 1 := by
  unfold logical at h
  split at h
  case h_3 heq => cases heq; rfl
  all_goals cases h

/-- A lexeme is taken by the same rule when the text is cut off behind it. -/
theorem first?_of_append {r : Rule} (h : first? (lexeme ++ (taken ++ rest)) = some r)
    (hextent : r.extent (lexeme ++ (taken ++ rest)) = lexeme.length)
    (hpoint : ∀ ds, taken = '.' :: ds → ds ≠ [] → first? (ds ++ rest) ≠ none) :
    first? (lexeme ++ taken) = some r ∧ r.extent (lexeme ++ taken) = lexeme.length := by
  have hr : r ∈ all := List.mem_of_find?_eq_some h
  have hpos := extent_pos_of_first? h
  have hne : lexeme ≠ [] := by
    rintro rfl
    rw [hextent] at hpos
    cases hpos
  have hsevered := severed_of_first? h hextent
  have hsame : r.extent (lexeme ++ taken) = lexeme.length := by
    simp only [all, List.mem_cons, List.not_mem_nil, or_false] at hr
    rcases hr with rfl | rfl | rfl | rfl | rfl | rfl | rfl | rfl | hr
    · exact blanks_of_append hextent
    · exact comment_of_append hne hextent
    · exact (keyword_append hne hsevered hsevered.of_append).trans hextent
    · exact (identifier_append hne hsevered hsevered.of_append).trans hextent
    · exact number_of_append hne hextent hpoint
    · exact string_append hne hextent taken
    · exact pair_of_append comparison_pair comparison_single hne hextent
    · exact pair_of_append logical_pair logical_single hne hextent
    · rcases hr with rfl | rfl | rfl | rfl | rfl | rfl | rfl | rfl | rfl
      all_goals exact pair_of_append (fun _ _ _ _ => rfl) (fun _ _ h => h) hne hextent
  refine ⟨first?_of_zero h (fun a ha hzero => ?_) ?_, hsame⟩
  · refine extent_append ha hr hzero (by omega) hne hsevered hsevered.of_append fun f hf hpeek => ?_
    rw [← List.append_assoc] at hpeek
    exact hf.of_append (by simp [hne]) hpeek
  · rw [hsame, ← hextent]
    omega

end Rule

namespace Scan

variable {taken rest : List Char}

/-- A scan that comes to stand at `rest` has first been where it started, and a rule applied. -/
theorem Arrives.first (h : Arrives taken rest) (hne : taken ≠ []) :
    ∃ r lexeme after, taken = lexeme ++ after ∧ Rule.first? (taken ++ rest) = some r ∧
      r.extent (taken ++ rest) = lexeme.length ∧ Arrives after rest := by
  cases h with
  | start => exact absurd rfl hne
  | @step r lexeme after _ hfirst hextent harrives =>
    refine ⟨r, lexeme, after, rfl, ?_, ?_, harrives⟩
    · rwa [List.append_assoc]
    · rwa [List.append_assoc]

/-- A scan that has taken a point has taken it alone, so a rule applies behind it unless the scan
stands there. -/
theorem Arrives.behind_point {ds : List Char} (h : Arrives ('.' :: ds) rest) (hne : ds ≠ []) :
    Rule.first? (ds ++ rest) ≠ none := by
  obtain ⟨r, lexeme, after, hsplit, hfirst, hextent, harrives⟩ := h.first (by simp)
  have hrule : Rule.first? ('.' :: (ds ++ rest)) = some ⟨some .dot, Rule.oneOf ['.']⟩ := rfl
  rw [List.cons_append, hrule] at hfirst
  cases hfirst
  have hlen : lexeme.length = 1 := hextent.symm
  have hafter : ds = after := by
    have hsplit' : ['.'] ++ ds = lexeme ++ after := hsplit
    exact (List.append_inj hsplit' (by rw [hlen]; rfl)).2
  subst hafter
  obtain ⟨r, _, _, _, hfirst, _⟩ := harrives.first hne
  rw [hfirst]
  simp

/-- Up to a place at which no rule applies, a scan reads the same from the text in front of that
place, and ends there. -/
theorem Arrives.clean (h : Arrives taken rest) (hne : rest ≠ []) (hnone : Rule.first? rest = none)
    (read : List Token) (p : Position) :
    scanFrom read p 0 taken = ⟨(scanFrom read p 0 (taken ++ rest)).tokens, none⟩ := by
  induction h generalizing read p with
  | start rest =>
    cases rest with
    | nil => exact absurd rfl hne
    | cons c rest => simp [scanFrom, hnone]
  | @step r lexeme taken rest hfirst hextent harrives ih =>
    have hpoint : ∀ ds, taken = '.' :: ds → ds ≠ [] → Rule.first? (ds ++ rest) ≠ none := by
      rintro ds rfl hds
      exact harrives.behind_point hds
    obtain ⟨hfirst', hextent'⟩ := Rule.first?_of_append hfirst hextent hpoint
    rw [scanFrom_rule hfirst' hextent', List.append_assoc, scanFrom_rule hfirst hextent,
      ih hne hnone]

/-- A scan that ends with an error has come to the place of the error. -/
theorem arrives_of_error (read : List Token) (p : Position) (cs : List Char) {e : LexError}
    (h : (scanFrom read p 0 cs).error = some e) :
    ∃ taken rest, cs = taken ++ rest ∧ Arrives taken rest ∧ rest ≠ [] ∧
      Rule.first? rest = none ∧ e.position = p.advance taken := by
  cases hcs : cs with
  | nil =>
    rw [hcs, scanFrom] at h
    cases h
  | cons c tail =>
    rw [hcs] at h
    cases hrule : Rule.first? (c :: tail) with
    | none =>
      rw [scanFrom, hrule] at h
      cases h
      exact ⟨[], c :: tail, rfl, .start _, by simp, hrule, rfl⟩
    | some r =>
      obtain ⟨lexeme, after, hsplit, hextent, _⟩ := Rule.exists_lexeme hrule
      have hpos := Rule.extent_pos_of_first? hrule
      have hshorter : after.length < cs.length := by
        rw [hcs, hsplit, List.length_append]
        omega
      rw [hsplit] at h hrule hextent ⊢
      rw [scanFrom_rule hrule hextent] at h
      obtain ⟨taken, rest, rfl, harrives, hne, hnone, hposition⟩ := arrives_of_error _ _ after h
      refine ⟨lexeme ++ taken, rest, ?_, .step hrule hextent harrives, hne, hnone, ?_⟩
      · rw [List.append_assoc]
      · rw [hposition, Position.advance_append]
termination_by cs.length

end Scan

/-- Where a scan ends with an error, the source up to the offset of the error is scanned without
one, to exactly the tokens that had been read, each at the same place. -/
theorem error_leaves_clean_prefix {source : String} {e : LexError}
    (h : tokenize source = .error e) :
    tokenize (String.ofList (source.toList.take e.position.offset)) =
      .ok (scan source).tokens := by
  have scanned : (scan source).error = some e := by
    rw [tokenize] at h
    rcases hs : scan source with ⟨tokens, _ | e'⟩ <;> rw [hs] at h <;> cases h
    rfl
  obtain ⟨taken, rest, hsource, harrives, hne, hnone, hposition⟩ :=
    Scan.arrives_of_error [] .start source.toList scanned
  have hoffset : e.position.offset = taken.length := by
    rw [hposition, Position.offset_advance]
    exact Nat.zero_add _
  have hfront : source.toList.take e.position.offset = taken := by
    rw [hoffset, hsource, List.take_left]
  have hclean := harrives.clean hne hnone [] .start
  rw [← hsource] at hclean
  rw [hfront, tokenize_eq_ok_iff, scan, String.toList_ofList, hclean]
  rfl

/-- The number is refused its fraction because of the letter behind the error, and cut off in front
of that fraction it is the same token. -/
theorem error_leaves_clean_prefix_fraction :
    tokenize "a\n=12.5x" = .error ⟨'5', ⟨6, 2, 5⟩⟩ ∧
    tokenize "a\n=12." = .ok [⟨.identifier, "a", 1, 1⟩, ⟨.assign, "=", 2, 1⟩,
      ⟨.number, "12", 2, 2⟩, ⟨.dot, ".", 2, 4⟩] := by
  have scanned : scan "a\n=12.5x" = ⟨[⟨.identifier, "a", 1, 1⟩, ⟨.assign, "=", 2, 1⟩,
      ⟨.number, "12", 2, 2⟩, ⟨.dot, ".", 2, 4⟩], some ⟨'5', ⟨6, 2, 5⟩⟩⟩ := by decide +kernel
  have error : tokenize "a\n=12.5x" = .error ⟨'5', ⟨6, 2, 5⟩⟩ := by rw [tokenize, scanned]
  have clean := error_leaves_clean_prefix error
  rw [scanned] at clean
  exact ⟨error, clean⟩

end ClassScript
