import ClassScript.Token.Lexer

/-!
# Lexemes

A rule that makes tokens takes its lexeme again wherever a blank or the end of the text follows it,
and no rule of higher priority gets in its way there. Word rules look at whole words, a number looks
behind a point, and some symbols are the beginnings of others; none of this reaches over a blank.

The tokens of a scan stand in the source: each at its own place, where the rule for its kind takes
its text. The character at which a scan stops stands at the place of the error.
-/

namespace ClassScript

namespace Text

theorem isWordChar_of_isBlank {c : Char} (h : isBlank c = true) : isWordChar c = false := by
  obtain ⟨r, hr, hlo, hhi⟩ := inRanges_eq_true_iff.mp h
  have table : ∀ r ∈ blankRanges, ∀ n ∈ List.range' r.1 (r.2 + 1 - r.1),
      isWordChar (Char.ofNat n) = false := by decide +kernel
  have hmem : c.toNat ∈ List.range' r.1 (r.2 + 1 - r.1) := by
    rw [List.mem_range'_1]
    omega
  simpa using table r hr c.toNat hmem

theorem isWordChar_of_isDigit {c : Char} (h : isDigit c = true) : isWordChar c = true := by
  simp [isWordChar, h]

theorem toNat_of_isAlpha {c : Char} (h : c.isAlpha = true) : 65 ≤ c.toNat ∧ c.toNat ≤ 122 := by
  have hcases : c.isUpper = true ∨ c.isLower = true := Bool.or_eq_true_iff.mp h
  rcases hcases with hupper | hlower
  · have hrange : 65 ≤ c.toNat ∧ c.toNat ≤ 90 := of_decide_eq_true hupper
    omega
  · have hbounds := Bool.and_eq_true_iff.mp hlower
    have hlo : 97 ≤ c.toNat := of_decide_eq_true hbounds.1
    have hhi : c.toNat ≤ 122 := of_decide_eq_true hbounds.2
    omega

theorem not_isDigit_of_isAlpha {c : Char} (h : c.isAlpha = true) : c.isDigit = false := by
  obtain ⟨hlo, _⟩ := toNat_of_isAlpha h
  refine Bool.eq_false_iff.mpr fun hdigit => ?_
  have hhi : c.toNat ≤ 57 := (Char.isDigit_iff_toNat.mp hdigit).2
  omega

/-- Characters of different sorts are different. -/
theorem ne_of_apply {p : Char → Bool} {c d : Char} (hc : p c = true) (hd : p d = false) :
    c ≠ d := by
  rintro rfl
  rw [hd] at hc
  cases hc

theorem isDigit_of_not_isWordChar {c : Char} (h : isWordChar c = false) : isDigit c = false := by
  cases hd : isDigit c with
  | false => rfl
  | true => simp [isWordChar, hd] at h

end Text

namespace Rule

/-- What stands here ends every lexeme before it: a blank, or the end of the text. -/
def Bounded (w : List Char) : Prop :=
  ∀ c ∈ w.head?, Text.isBlank c = true

/-- No word goes on from `lexeme` into `rest`. -/
def Severed (lexeme rest : List Char) : Prop :=
  ∀ c ∈ lexeme.getLast?, Text.isWordChar c = true → startsWord rest = false

variable {w lexeme rest after : List Char}

theorem Bounded.startsWord (hw : Bounded w) : startsWord w = false := by
  cases w with
  | nil => rfl
  | cons b w => simpa [Rule.startsWord] using Text.isWordChar_of_isBlank (hw b rfl)

theorem Bounded.ne (hw : Bounded w) {c : Char} (hc : Text.isBlank c = false) (rest : List Char) :
    w ≠ c :: rest := by
  rintro rfl
  have hb := hw c rfl
  rw [hc] at hb
  cases hb

theorem severed_bounded (hw : Bounded w) : Severed lexeme w :=
  fun _ _ _ => hw.startsWord

theorem Severed.startsWord (h : Severed lexeme rest) (hne : lexeme ≠ [])
    (hall : ∀ c ∈ lexeme, Text.isWordChar c = true) : startsWord rest = false :=
  h _ (List.getLast?_eq_some_getLast hne) (hall _ (List.getLast_mem hne))

theorem head_of_not_startsWord {cs : List Char} (h : startsWord cs = false) :
    ∀ c ∈ cs.head?, Text.isWordChar c = false := by
  cases cs with
  | nil => simp
  | cons c cs => simpa [Rule.startsWord] using h

/-- A run at the front of a text stops where its first character does not belong to the run. -/
theorem takeWhile_of_head {α : Type} {p : α → Bool} {cs : List α}
    (h : ∀ c ∈ cs.head?, p c = false) :
    cs.takeWhile p = [] ∧ cs.dropWhile p = cs := by
  cases cs with
  | nil => exact ⟨rfl, rfl⟩
  | cons c cs =>
    have hc := h c rfl
    simp [hc]

/-- The word at the front of a text does not depend on what follows a lexeme that no word
crosses. -/
theorem word_append (hne : lexeme ≠ []) (h : Severed lexeme rest)
    (h' : Severed lexeme after) : word (lexeme ++ after) = word (lexeme ++ rest) := by
  rw [word, word, List.takeWhile_append, List.takeWhile_append]
  split
  · rename_i hlen
    have hall : ∀ c ∈ lexeme, Text.isWordChar c = true := by
      have heq : lexeme.takeWhile Text.isWordChar = lexeme :=
        (List.takeWhile_prefix _).eq_of_length hlen
      intro c hc
      rw [← heq] at hc
      exact List.all_eq_true.mp List.all_takeWhile c hc
    rw [(takeWhile_of_head (head_of_not_startsWord (h.startsWord hne hall))).1,
      (takeWhile_of_head (head_of_not_startsWord (h'.startsWord hne hall))).1]
  · rfl

theorem keyword_append (hne : lexeme ≠ []) (h : Severed lexeme rest)
    (h' : Severed lexeme after) : keyword (lexeme ++ after) = keyword (lexeme ++ rest) := by
  rw [keyword, keyword, word_append hne h h']

theorem identifier_append (hne : lexeme ≠ []) (h : Severed lexeme rest)
    (h' : Severed lexeme after) : identifier (lexeme ++ after) = identifier (lexeme ++ rest) := by
  rw [identifier, identifier, word_append hne h h']

theorem number_ne_zero_iff {cs : List Char} :
    number cs ≠ 0 ↔
      cs.takeWhile Text.isDigit ≠ [] ∧ startsWord (cs.dropWhile Text.isDigit) = false := by
  have point (ds : List Char) : startsWord ('.' :: ds) = false := by
    have : Text.isWordChar '.' = false := by decide
    simpa [startsWord] using this
  rw [number]
  cases hwhole : cs.takeWhile Text.isDigit with
  | nil => simp
  | cons d whole =>
    simp only [List.isEmpty_cons, Bool.false_eq_true, if_false]
    split
    · rename_i ds hrest
      rw [hrest, point]
      split <;> simp
    · cases hs : startsWord (cs.dropWhile Text.isDigit) <;> simp

theorem startsWord_append (hne : lexeme ≠ []) (after : List Char) :
    startsWord (lexeme ++ after) = startsWord lexeme := by
  cases lexeme with
  | nil => exact absurd rfl hne
  | cons c lexeme => rfl

/-- Whether a number stands at the front does not depend on what follows a lexeme that no word
crosses. -/
theorem number_append (hne : lexeme ≠ []) (h : Severed lexeme rest)
    (hzero : number (lexeme ++ rest) = 0) : number (lexeme ++ after) = 0 := by
  refine Decidable.byContradiction fun hnum => ?_
  obtain ⟨hdigits, hstop⟩ := number_ne_zero_iff.mp hnum
  refine number_ne_zero_iff.mpr ?_ hzero
  have first (cs : List Char) : (lexeme ++ cs).takeWhile Text.isDigit ≠ [] ↔
      lexeme.takeWhile Text.isDigit ≠ [] := by
    cases lexeme with
    | nil => exact absurd rfl hne
    | cons c lexeme =>
      simp only [List.cons_append, List.takeWhile_cons]
      split <;> simp
  refine ⟨(first rest).mpr ((first after).mp hdigits), ?_⟩
  rw [List.dropWhile_append] at hstop ⊢
  by_cases hempty : (lexeme.dropWhile Text.isDigit).isEmpty = true
  · have hdrop : lexeme.takeWhile Text.isDigit = lexeme := by
      have happend := List.takeWhile_append_dropWhile (p := Text.isDigit) (l := lexeme)
      rwa [List.isEmpty_iff.mp hempty, List.append_nil] at happend
    have hall : ∀ c ∈ lexeme, Text.isWordChar c = true := by
      intro c hc
      rw [← hdrop] at hc
      exact Text.isWordChar_of_isDigit (List.all_eq_true.mp List.all_takeWhile c hc)
    have hword := h.startsWord hne hall
    have hdigit : ∀ c ∈ rest.head?, Text.isDigit c = false := fun c hc =>
      Text.isDigit_of_not_isWordChar (head_of_not_startsWord hword c hc)
    rw [if_pos hempty, (takeWhile_of_head hdigit).2, hword]
  · have hleft : lexeme.dropWhile Text.isDigit ≠ [] := fun heq => hempty (by rw [heq]; rfl)
    rw [if_neg hempty, startsWord_append hleft] at hstop ⊢
    exact hstop

/-- A rule that looks at two characters at most, and at a second one that is no blank. -/
structure Peeks (f : List Char → Nat) : Prop where
  pair {c d : Char} {rest : List Char} (h : f (c :: d :: rest) = 0) (after : List Char) :
    f (c :: d :: after) = 0
  single {c : Char} {rest w : List Char} (h : f (c :: rest) = 0) (hw : Bounded w) : f (c :: w) = 0

theorem Peeks.append {f : List Char → Nat} (hf : Peeks f) (hne : lexeme ≠ []) (hw : Bounded w)
    (hzero : f (lexeme ++ rest) = 0) : f (lexeme ++ w) = 0 := by
  rcases lexeme with _ | ⟨c, _ | ⟨d, lexeme⟩⟩
  · exact absurd rfl hne
  · exact hf.single hzero hw
  · exact hf.pair hzero _

theorem peeks_blanks : Peeks blanks where
  pair {c d rest} h after := by
    have hc : Text.isBlank c = false := by
      cases hc : Text.isBlank c <;> simp [blanks, hc] at h ⊢
    simp [blanks, hc]
  single {c rest w} h _ := by
    have hc : Text.isBlank c = false := by
      cases hc : Text.isBlank c <;> simp [blanks, hc] at h ⊢
    simp [blanks, hc]

theorem peeks_oneOf (set : List Char) : Peeks (oneOf set) where
  pair h _ := h
  single h _ := h

theorem peeks_comment : Peeks comment where
  pair {c d rest} h after := by
    unfold comment at h ⊢
    split
    · rename_i heq
      cases heq
      simp at h
    · rfl
  single {c rest w} h hw := by
    unfold comment
    split
    · rename_i heq
      exact absurd (List.cons.inj heq).2 (hw.ne (by decide) _)
    · rfl

/-- Where no equality sign comes second. -/
theorem comparison_cons (h : ∀ tail, rest ≠ '=' :: tail) (c : Char) :
    comparison (c :: rest) = if c = '<' ∨ c = '>' then 1 else 0 := by
  unfold comparison
  split <;> simp_all

theorem peeks_comparison : Peeks comparison where
  pair {c d rest} h after := by
    unfold comparison at h ⊢
    split
    case h_7 => rfl
    all_goals
      rename_i heq
      cases heq
      split at h <;> simp_all
  single {c rest w} h hw := by
    rw [comparison_cons (hw.ne (by decide))]
    split
    · rename_i hc
      unfold comparison at h
      split at h <;> simp_all
    · rfl

theorem peeks_logical : Peeks logical where
  pair {c d rest} h after := by
    unfold logical at h ⊢
    split
    case h_4 => rfl
    all_goals
      rename_i heq
      cases heq
      split at h <;> simp_all
  single {c rest w} h hw := by
    unfold logical
    split
    · rename_i heq
      exact absurd (List.cons.inj heq).2 (hw.ne (by decide) _)
    · rename_i heq
      exact absurd (List.cons.inj heq).2 (hw.ne (by decide) _)
    · rename_i heq
      cases heq
      cases h
    · rfl

/-- The closing quote of a literal ends it, whatever follows. -/
theorem stringBody_spec {cs : List Char} {n : Nat} (h : stringBody cs = some n) :
    ∃ body rest, cs = body ++ '"' :: rest ∧ n = body.length + 1 ∧
      ∀ after, stringBody (body ++ '"' :: after) = some n := by
  fun_induction stringBody cs generalizing n with
  | case1 => cases h
  | case2 rest =>
    cases h
    exact ⟨[], rest, rfl, rfl, fun _ => rfl⟩
  | case3 => cases h
  | case4 => cases h
  | case5 c cs hc ih =>
    obtain ⟨m, hm, rfl⟩ := Option.map_eq_some_iff.mp h
    obtain ⟨body, rest, rfl, rfl, hbody⟩ := ih hm
    refine ⟨'\\' :: c :: body, rest, rfl, rfl, fun after => ?_⟩
    rw [List.cons_append, List.cons_append, stringBody, if_neg hc, hbody]
    rfl
  | case6 c cs hquote hslash hescape ih =>
    obtain ⟨m, hm, rfl⟩ := Option.map_eq_some_iff.mp h
    obtain ⟨body, rest, rfl, rfl, hbody⟩ := ih hm
    refine ⟨c :: body, rest, rfl, rfl, fun after => ?_⟩
    have hback : c ≠ '\\' := by
      intro hc
      cases htail : body ++ '"' :: rest with
      | nil => exact hslash hc htail
      | cons d tail => exact hescape d tail hc htail
    rw [List.cons_append, stringBody, hbody]
    · rfl
    · exact hquote
    · exact fun hc => absurd hc hback
    · exact fun _ _ hc => absurd hc hback

/-- The rule takes a lexeme at the front of `cs` that it takes in front of any blank as well. -/
def Repeats (f : List Char → Nat) (cs : List Char) : Prop :=
  ∃ lexeme rest, cs = lexeme ++ rest ∧ f cs = lexeme.length ∧ Severed lexeme rest ∧
    ∀ w, Bounded w → f (lexeme ++ w) = lexeme.length

/-- A rule that takes the whole word or nothing. -/
theorem repeats_of_word {f : List Char → Nat} {cs : List Char} (hf : f cs = (word cs).length)
    (happend : ∀ {lexeme rest after}, lexeme ≠ [] → Severed lexeme rest → Severed lexeme after →
      f (lexeme ++ after) = f (lexeme ++ rest))
    (hpos : f cs ≠ 0) : Repeats f cs := by
  have hne : word cs ≠ [] := by
    intro heq
    rw [hf, heq] at hpos
    exact hpos rfl
  have hsplit : word cs ++ cs.dropWhile Text.isWordChar = cs := List.takeWhile_append_dropWhile
  have hsevered : Severed (word cs) (cs.dropWhile Text.isWordChar) := by
    intro _ _ _
    have hhead := List.head?_dropWhile_not Text.isWordChar cs
    cases hrest : cs.dropWhile Text.isWordChar with
    | nil => rfl
    | cons c rest => simpa [hrest, startsWord] using hhead
  refine ⟨word cs, _, hsplit.symm, hf, hsevered, fun w hw => ?_⟩
  rw [happend hne hsevered (severed_bounded hw), hsplit, hf]

/-- A keyword is the whole word. -/
theorem keyword_eq_length {cs : List Char} (h : keyword cs ≠ 0) :
    keyword cs = (word cs).length := by
  rw [keyword] at h ⊢
  split
  · rfl
  · rename_i hnot
    rw [if_neg hnot] at h
    exact absurd rfl h

/-- An identifier is the whole word. -/
theorem identifier_eq_length {cs : List Char} (h : identifier cs ≠ 0) :
    identifier cs = (word cs).length := by
  rw [identifier] at h ⊢
  cases hword : word cs with
  | nil => rfl
  | cons c rest =>
    rw [hword] at h
    dsimp only at h ⊢
    split
    · rfl
    · rename_i hnot
      rw [if_neg hnot] at h
      exact absurd rfl h

theorem repeats_keyword {cs : List Char} (h : keyword cs ≠ 0) : Repeats keyword cs :=
  repeats_of_word (keyword_eq_length h) keyword_append h

theorem repeats_identifier {cs : List Char} (h : identifier cs ≠ 0) : Repeats identifier cs :=
  repeats_of_word (identifier_eq_length h) identifier_append h

/-- A run of characters of one sort in front of what does not go on with it. -/
theorem takeRun {α : Type} {p : α → Bool} {run after : List α} (hrun : ∀ c ∈ run, p c = true)
    (hafter : ∀ c ∈ after.head?, p c = false) :
    (run ++ after).takeWhile p = run ∧ (run ++ after).dropWhile p = after := by
  obtain ⟨htake, hdrop⟩ := takeWhile_of_head hafter
  constructor
  · rw [List.takeWhile_append_of_pos hrun, htake, List.append_nil]
  · rw [List.dropWhile_append_of_pos hrun, hdrop]

theorem not_digit_of_not_startsWord (h : startsWord rest = false) :
    ∀ c ∈ rest.head?, Text.isDigit c = false :=
  fun c hc => Text.isDigit_of_not_isWordChar (head_of_not_startsWord h c hc)

/-- Digits stand alone where no fraction follows them: there is no point, or no digit behind it, or
a word goes on behind the digits there. -/
theorem number_whole {digits : List Char} (hne : digits ≠ [])
    (hdigits : ∀ c ∈ digits, Text.isDigit c = true) (hrest : startsWord rest = false)
    (hpoint : ∀ ds, rest = '.' :: ds →
      ds.takeWhile Text.isDigit = [] ∨ startsWord (ds.dropWhile Text.isDigit) = true) :
    number (digits ++ rest) = digits.length := by
  obtain ⟨htake, hdrop⟩ := takeRun hdigits (not_digit_of_not_startsWord hrest)
  rw [number, htake, hdrop]
  dsimp only
  rw [if_neg (by simpa using hne)]
  split
  · rename_i ds
    rw [if_pos]
    simpa using hpoint ds rfl
  · rw [hrest]
    rfl

theorem number_fraction {digits fraction : List Char} (hne : digits ≠ []) (hne' : fraction ≠ [])
    (hdigits : ∀ c ∈ digits, Text.isDigit c = true)
    (hfraction : ∀ c ∈ fraction, Text.isDigit c = true) (hrest : startsWord rest = false) :
    number (digits ++ '.' :: (fraction ++ rest)) = digits.length + 1 + fraction.length := by
  have hpoint : ∀ c ∈ ('.' :: (fraction ++ rest)).head?, Text.isDigit c = false := by
    intro c hc
    cases hc
    decide
  obtain ⟨htake, hdrop⟩ := takeRun hdigits hpoint
  obtain ⟨htake', hdrop'⟩ := takeRun hfraction (not_digit_of_not_startsWord hrest)
  simp [number, htake, hdrop, htake', hdrop', hrest, hne, hne']

/-- A number is a run of digits without a fraction, or two runs with a point between them that
nothing but the end of a word follows. -/
theorem number_cases {cs : List Char} (h : number cs ≠ 0) :
    (number cs = (cs.takeWhile Text.isDigit).length ∧
      ∀ ds, cs.dropWhile Text.isDigit = '.' :: ds →
        ds.takeWhile Text.isDigit = [] ∨ startsWord (ds.dropWhile Text.isDigit) = true) ∨
    ∃ fraction after, cs = cs.takeWhile Text.isDigit ++ '.' :: (fraction ++ after) ∧
      fraction ≠ [] ∧ (∀ c ∈ fraction, Text.isDigit c = true) ∧ startsWord after = false ∧
      number cs = (cs.takeWhile Text.isDigit).length + 1 + fraction.length := by
  obtain ⟨hne, hstop⟩ := number_ne_zero_iff.mp h
  have hsplit := List.takeWhile_append_dropWhile (p := Text.isDigit) (l := cs)
  have hwhole : (cs.takeWhile Text.isDigit).isEmpty = false := by simpa using hne
  simp only [number, hwhole, Bool.false_eq_true, if_false]
  split
  · rename_i ds hrest
    by_cases hfraction : ((ds.takeWhile Text.isDigit).isEmpty ||
        startsWord (ds.dropWhile Text.isDigit)) = true
    · left
      rw [if_pos hfraction]
      refine ⟨rfl, fun ds' hds' => ?_⟩
      rw [hrest] at hds'
      cases hds'
      simpa using hfraction
    · right
      rw [if_neg hfraction]
      simp only [Bool.or_eq_true, List.isEmpty_iff, not_or, Bool.not_eq_true] at hfraction
      refine ⟨ds.takeWhile Text.isDigit, ds.dropWhile Text.isDigit, ?_, hfraction.1,
        List.all_eq_true.mp List.all_takeWhile, hfraction.2, rfl⟩
      rw [List.takeWhile_append_dropWhile, ← hrest, hsplit]
  · rename_i hpoint
    left
    rw [hstop]
    exact ⟨rfl, fun ds hds => absurd hds (hpoint ds)⟩

theorem repeats_number {cs : List Char} (h : number cs ≠ 0) : Repeats number cs := by
  obtain ⟨hne, hstop⟩ := number_ne_zero_iff.mp h
  have hdigits : ∀ c ∈ cs.takeWhile Text.isDigit, Text.isDigit c = true :=
    List.all_eq_true.mp List.all_takeWhile
  rcases number_cases h with ⟨hlen, _⟩ | ⟨fraction, after, hsplit, hne', hfraction, hafter, hlen⟩
  · refine ⟨_, _, List.takeWhile_append_dropWhile.symm, hlen, fun _ _ _ => hstop, fun w hw => ?_⟩
    exact number_whole hne hdigits hw.startsWord fun ds hds => absurd hds (hw.ne (by decide) ds)
  · refine ⟨cs.takeWhile Text.isDigit ++ '.' :: fraction, after, ?_, ?_, fun _ _ _ => hafter,
      fun w hw => ?_⟩
    · rw [List.append_assoc, List.cons_append, ← hsplit]
    · rw [hlen, List.length_append, List.length_cons]
      omega
    · rw [List.append_assoc, List.cons_append,
        number_fraction hne hne' hdigits hfraction hw.startsWord, List.length_append,
        List.length_cons]
      omega

/-- A lexeme that ends with no word character crosses into no word. -/
theorem severed_of_last (lexeme : List Char) {c : Char} (hc : Text.isWordChar c = false) :
    Severed (lexeme ++ [c]) rest := by
  intro d hd hword
  rw [List.getLast?_concat] at hd
  cases hd
  rw [hc] at hword
  cases hword

theorem repeats_string {cs : List Char} (h : string cs ≠ 0) : Repeats string cs := by
  unfold string at h
  split at h
  · rename_i tail
    cases hbody : stringBody tail with
    | none =>
      rw [hbody] at h
      exact absurd rfl h
    | some n =>
      obtain ⟨body, rest, rfl, rfl, hagain⟩ := stringBody_spec hbody
      have hlen (after : List Char) :
          string (('"' :: (body ++ ['"'])) ++ after) = ('"' :: (body ++ ['"'])).length := by
        simp [string, hagain]
      refine ⟨'"' :: (body ++ ['"']), rest, by simp, ?_, severed_of_last ('"' :: body) (by decide),
        fun w _ => hlen w⟩
      simpa using hlen rest
  · exact absurd rfl h

theorem repeats_pair {f : List Char → Nat} {c d : Char} (hd : Text.isWordChar d = false)
    (hf : ∀ after, f (c :: d :: after) = 2) (rest : List Char) : Repeats f (c :: d :: rest) :=
  ⟨[c, d], rest, rfl, hf rest, severed_of_last [c] hd, fun w _ => hf w⟩

theorem repeats_single {f : List Char → Nat} {c : Char} (hc : Text.isWordChar c = false)
    (hrest : f (c :: rest) = 1) (hf : ∀ w, Bounded w → f (c :: w) = 1) : Repeats f (c :: rest) :=
  ⟨[c], rest, rfl, hrest, severed_of_last [] hc, hf⟩

theorem repeats_comparison {cs : List Char} : comparison cs ≠ 0 → Repeats comparison cs := by
  have bounded (c : Char) (w : List Char) (hw : Bounded w) := comparison_cons (hw.ne (by decide)) c
  fun_cases comparison cs with
  | case1 rest => exact fun _ => repeats_pair (by decide) (fun _ => rfl) rest
  | case2 rest => exact fun _ => repeats_pair (by decide) (fun _ => rfl) rest
  | case3 rest => exact fun _ => repeats_pair (by decide) (fun _ => rfl) rest
  | case4 rest => exact fun _ => repeats_pair (by decide) (fun _ => rfl) rest
  | case5 rest hnext =>
    exact fun _ => repeats_single (by decide) (comparison_cons hnext '<') (bounded '<')
  | case6 rest hnext =>
    exact fun _ => repeats_single (by decide) (comparison_cons hnext '>') (bounded '>')
  | case7 => exact fun h => absurd rfl h

theorem repeats_logical {cs : List Char} : logical cs ≠ 0 → Repeats logical cs := by
  fun_cases logical cs with
  | case1 rest => exact fun _ => repeats_pair (by decide) (fun _ => rfl) rest
  | case2 rest => exact fun _ => repeats_pair (by decide) (fun _ => rfl) rest
  | case3 rest => exact fun _ => repeats_single (by decide) rfl fun _ _ => rfl
  | case4 => exact fun h => absurd rfl h

theorem repeats_oneOf {set : List Char} (hset : (set.all fun c => !Text.isWordChar c) = true)
    {cs : List Char} (h : oneOf set cs ≠ 0) : Repeats (oneOf set) cs := by
  cases cs with
  | nil => exact absurd rfl h
  | cons c cs =>
    by_cases hc : set.contains c = true
    · have hone (after : List Char) : oneOf set (c :: after) = 1 := if_pos hc
      have hword := List.all_eq_true.mp hset c (List.contains_iff_mem.mp hc)
      exact repeats_single (by simpa using hword) (hone cs) fun w _ => hone w
    · exact absurd (if_neg hc) h

/-- Every rule that makes tokens takes its lexeme again in front of a blank. -/
theorem repeats_of_mem {r : Rule} (hr : r ∈ all) (hkind : r.kind ≠ none) {cs : List Char}
    (h : r.extent cs ≠ 0) : Repeats r.extent cs := by
  simp only [all, List.mem_cons, List.not_mem_nil, or_false] at hr
  rcases hr with rfl | rfl | rfl | rfl | rfl | rfl | rfl | rfl | hr
  · exact absurd rfl hkind
  · exact absurd rfl hkind
  · exact repeats_keyword h
  · exact repeats_identifier h
  · exact repeats_number h
  · exact repeats_string h
  · exact repeats_comparison h
  · exact repeats_logical h
  · rcases hr with rfl | rfl | rfl | rfl | rfl | rfl | rfl | rfl | rfl
    all_goals exact repeats_oneOf (by decide) h

/-- At a quote only the rule for literals applies. -/
theorem eq_string_of_quote {r : Rule} (hr : r ∈ all) {cs : List Char}
    (h : r.extent ('"' :: cs) ≠ 0) : r = ⟨some .string, string⟩ := by
  simp only [all, List.mem_cons, List.not_mem_nil, or_false] at hr
  rcases hr with rfl | rfl | rfl | rfl | rfl | rfl | rfl | rfl | hr
  · exact absurd rfl h
  · exact absurd rfl h
  · exact absurd rfl h
  · exact absurd rfl h
  · exact absurd rfl h
  · rfl
  · exact absurd rfl h
  · exact absurd rfl h
  · rcases hr with rfl | rfl | rfl | rfl | rfl | rfl | rfl | rfl | rfl
    all_goals exact absurd rfl h

/-- A rule that does not apply where another takes a lexeme does not apply at that lexeme with
something else behind it either, unless a word goes on there or the rule peeks at what is new. -/
theorem extent_append {a r : Rule} (ha : a ∈ all) (hr : r ∈ all)
    (hzero : a.extent (lexeme ++ rest) = 0) (hrule : r.extent (lexeme ++ rest) ≠ 0)
    (hne : lexeme ≠ []) (hsevered : Severed lexeme rest) (hsevered' : Severed lexeme after)
    (hpeeks : ∀ f, Peeks f → f (lexeme ++ rest) = 0 → f (lexeme ++ after) = 0) :
    a.extent (lexeme ++ after) = 0 := by
  have hstring : string (lexeme ++ rest) = 0 → string (lexeme ++ after) = 0 := by
    intro hno
    cases lexeme with
    | nil => exact absurd rfl hne
    | cons c lexeme =>
      by_cases hc : c = '"'
      · subst hc
        rw [eq_string_of_quote hr hrule] at hrule
        exact absurd hno hrule
      · unfold string
        split
        · rename_i heq
          exact absurd (List.cons.inj heq).1 hc
        · rfl
  simp only [all, List.mem_cons, List.not_mem_nil, or_false] at ha
  rcases ha with rfl | rfl | rfl | rfl | rfl | rfl | rfl | rfl | ha
  · exact hpeeks _ peeks_blanks hzero
  · exact hpeeks _ peeks_comment hzero
  · exact (keyword_append hne hsevered hsevered').trans hzero
  · exact (identifier_append hne hsevered hsevered').trans hzero
  · exact number_append hne hsevered hzero
  · exact hstring hzero
  · exact hpeeks _ peeks_comparison hzero
  · exact hpeeks _ peeks_logical hzero
  · rcases ha with rfl | rfl | rfl | rfl | rfl | rfl | rfl | rfl | rfl
    all_goals exact hpeeks _ (peeks_oneOf _) hzero

/-- The same rule comes first at two texts if it applies at both and no other rule starts to
apply. -/
theorem first?_of_zero {cs ds : List Char} {r : Rule} (h : first? cs = some r)
    (hzero : ∀ a ∈ all, a.extent cs = 0 → a.extent ds = 0) (hpos : r.extent ds ≠ 0) :
    first? ds = some r := by
  obtain ⟨_, before, behind, hall, hbefore⟩ := List.find?_eq_some_iff_append.mp h
  refine List.find?_eq_some_iff_append.mpr ⟨by simpa using hpos, before, behind, hall, ?_⟩
  intro a ha
  have hmem : a ∈ all := by rw [hall]; exact List.mem_append_left _ ha
  have hnot : a.extent cs = 0 := by simpa using hbefore a ha
  simp [hzero a hmem hnot]

/-- A lexeme is taken by the same rule wherever a blank follows it. -/
theorem first?_again {cs : List Char} {r : Rule} (h : first? cs = some r) (hkind : r.kind ≠ none) :
    ∃ lexeme rest, cs = lexeme ++ rest ∧ r.extent cs = lexeme.length ∧ lexeme ≠ [] ∧
      ∀ w, Bounded w → first? (lexeme ++ w) = some r ∧ r.extent (lexeme ++ w) = lexeme.length := by
  have hr : r ∈ all := List.mem_of_find?_eq_some h
  have hpos : r.extent cs ≠ 0 := Nat.pos_iff_ne_zero.mp (extent_pos_of_first? h)
  obtain ⟨lexeme, rest, rfl, hlen, hsevered, hagain⟩ := repeats_of_mem hr hkind hpos
  have hne : lexeme ≠ [] := by
    rintro rfl
    exact hpos hlen
  refine ⟨lexeme, rest, rfl, hlen, hne, fun w hw => ⟨?_, hagain w hw⟩⟩
  refine first?_of_zero h ?_ ?_
  · intro a ha hzero
    exact extent_append ha hr hzero hpos hne hsevered (severed_bounded hw)
      fun f hf => hf.append hne hw
  · rw [hagain w hw, ← hlen]
    exact hpos

theorem first?_of_blank {c : Char} (hc : Text.isBlank c = true) (cs : List Char) :
    first? (c :: cs) = some ⟨none, blanks⟩ := by
  simp [first?, all, blanks, hc]

end Rule

/-- The characters are what the rule for tokens of this kind takes at the front of some text. -/
def IsLexeme (kind : TokenKind) (lexeme : List Char) : Prop :=
  ∃ r cs, Rule.first? cs = some r ∧ r.kind = some kind ∧ lexeme = cs.take (r.extent cs)

theorem IsLexeme.again {kind : TokenKind} {lexeme w : List Char} (h : IsLexeme kind lexeme)
    (hw : Rule.Bounded w) :
    ∃ r, Rule.first? (lexeme ++ w) = some r ∧ r.kind = some kind ∧
      r.extent (lexeme ++ w) = lexeme.length := by
  obtain ⟨r, cs, hfirst, hkind, hlexeme⟩ := h
  obtain ⟨taken, rest, rfl, hlen, _, hagain⟩ := Rule.first?_again hfirst (by rw [hkind]; simp)
  rw [hlen, List.take_left] at hlexeme
  subst hlexeme
  exact ⟨r, (hagain w hw).1, hkind, (hagain w hw).2⟩

theorem IsLexeme.not_blank {kind : TokenKind} {c : Char} {lexeme : List Char}
    (h : IsLexeme kind (c :: lexeme)) : Text.isBlank c = false := by
  obtain ⟨r, hfirst, hkind, _⟩ := h.again (w := []) (by simp [Rule.Bounded])
  cases hc : Text.isBlank c with
  | false => rfl
  | true =>
    rw [List.append_nil, Rule.first?_of_blank hc] at hfirst
    cases hfirst
    cases hkind

theorem IsLexeme.ne_nil {kind : TokenKind} {lexeme : List Char} (h : IsLexeme kind lexeme) :
    lexeme ≠ [] := by
  rintro rfl
  obtain ⟨r, hfirst, _, hlen⟩ := h.again (w := []) (by simp [Rule.Bounded])
  have hpos := Rule.extent_pos_of_first? hfirst
  rw [hlen] at hpos
  cases hpos

/-- The token stands in the source: at its place the rule for its kind takes its text. -/
def Token.StandsIn (t : Token) (source : List Char) : Prop :=
  ∃ pre post r, source = pre ++ post ∧ Rule.first? post = some r ∧ r.kind = some t.kind ∧
    t.text.toList = post.take (r.extent post) ∧
    t.line = (Position.start.advance pre).line ∧ t.column = (Position.start.advance pre).column

/-- The offending character stands in the source, and at the place of the error no rule applies. -/
def LexError.StandsIn (e : LexError) (source : List Char) : Prop :=
  ∃ pre post, source = pre ++ e.char :: post ∧ Rule.first? (e.char :: post) = none ∧
    e.position = Position.start.advance pre

theorem Token.StandsIn.isLexeme {t : Token} {source : List Char} (h : t.StandsIn source) :
    IsLexeme t.kind t.text.toList := by
  obtain ⟨_, post, r, _, hfirst, hkind, htext, _⟩ := h
  exact ⟨r, post, hfirst, hkind, htext⟩

namespace Scan

/-- What a scan has read stands in the source, and so does what it reads from a place in it. -/
theorem standsIn_of_scanFrom {source done : List Char} {read : List Token} {p : Position}
    {skip : Nat} {cs : List Char} (hsource : source = done ++ cs)
    (hp : p = Position.start.advance done) (hread : ∀ t ∈ read, t.StandsIn source) :
    (∀ t ∈ (scanFrom read p skip cs).tokens, t.StandsIn source) ∧
      ∀ e ∈ (scanFrom read p skip cs).error, e.StandsIn source := by
  induction cs generalizing done read p skip with
  | nil => exact ⟨by simpa [scanFrom] using hread, by simp [scanFrom]⟩
  | cons c cs ih =>
    have hsource' : source = (done ++ [c]) ++ cs := by simpa using hsource
    have hp' : p.next c = Position.start.advance (done ++ [c]) := by
      rw [hp, Position.advance_append]
      rfl
    cases skip with
    | succ skip => exact ih hsource' hp' hread
    | zero =>
      rw [scanFrom]
      cases hrule : Rule.first? (c :: cs) with
      | none =>
        refine ⟨by simpa using hread, fun e he => ?_⟩
        cases he
        exact ⟨done, cs, hsource, hrule, hp⟩
      | some r =>
        refine ih hsource' hp' fun t ht => ?_
        rcases List.mem_append.mp ht with ht | ht
        · obtain ⟨kind, hkind, rfl⟩ := Option.map_eq_some_iff.mp (Option.mem_toList.mp ht)
          exact ⟨done, c :: cs, r, hsource, hrule, hkind, String.toList_ofList, by rw [hp],
            by rw [hp]⟩
        · exact hread t ht

theorem standsIn (source : String) :
    (∀ t ∈ (scan source).tokens, t.StandsIn source.toList) ∧
      ∀ e ∈ (scan source).error, e.StandsIn source.toList := by
  have whole : source.toList = [] ++ source.toList := rfl
  exact standsIn_of_scanFrom whole rfl (by simp)

end Scan

end ClassScript
