import ClassScript.Proofs.AgreeingSessions
import ClassScript.Proofs.ForgottenLines
import ClassScript.Proofs.Lookahead

/-!
# Layout makes no difference

Two sources with the same tokens, whatever the places of these tokens, run alike. Either both are
parsed, to trees that differ in lines alone, and the runs do the same. Or both are rejected at the
same token for the same reason. Or both nest too deep for the parser. Nothing but the place of an
error, and the excerpt of the source that shows it, can tell the two apart.

Nesting that is too deep is a case of its own, neither a tree nor an error at a token. It takes
about as many tokens as the parser may go levels deep, and enough opening parentheses get there.
-/

namespace ClassScript

namespace ParseError

variable {e e' : ParseError} (same : e.forgetPlaces = e'.forgetPlaces)

include same

theorem found_of_same : e.found.map Token.face = e'.found.map Token.face := by
  have face (e : ParseError) : e.found.map Token.face = e.forgetPlaces.found.map Token.face := by
    obtain ⟨expected, _ | ⟨t, rest⟩⟩ := e <;> rfl
  rw [face e, same, ← face e']

theorem message_of_same : e.message = e'.message := by
  have texts (e : ParseError) : e.message = e.forgetPlaces.message := by
    obtain ⟨expected, _ | ⟨t, rest⟩⟩ := e <;> rfl
  rw [texts e, same, ← texts e']

end ParseError

namespace Report

/-- The report at no line in particular, if it had a line. -/
def forgetLine (r : Report) : Report :=
  { r with line := r.line.map fun _ => 0 }

/-- The report apart from the place of a parse error and the texts that show it. -/
def withoutPlace (r : Report) : Report :=
  { r with message := none, line := none, column := none, detail := none }

/-- Apart from its place, the report of a parse error is that of any other. -/
theorem withoutPlace_parse (output : String) (source : Option String) (e : ParseError) :
    (ofSourceError output source (.parse e)).withoutPlace =
      (failure output .parse "" []).withoutPlace := rfl

end Report

namespace Session

/-- The session with the lines taken out of all the trees it stores. -/
def forgetLines (s : Session) : Session :=
  { s with context := s.context.forgetLines }

/-- The same report but for the line of a fault, and the same session but for lines. -/
def SameRuns (a b : Report × Session) : Prop :=
  a.1.forgetLine = b.1.forgetLine ∧ a.2.forgetLines = b.2.forgetLines

/-- After a run of each, two sessions have the contexts that the runs started from, but for the
debug log, which is the same. -/
def Unchanged (s s' t t' : Session) : Prop :=
  ∃ log, t = { s with context := { s.fresh with log } } ∧
    t' = { s' with context := { s'.fresh with log } }

/-- Reports of two parse errors of which only the place and the excerpt at it may differ. -/
structure SameErrors (source source' : String) (e e' : ParseError) (r r' : Report) : Prop where
  expected : e.expected = e'.expected
  found : e.found.map Token.face = e'.found.map Token.face
  kind : r.kind = some .parse
  detail : r.detail = some (.parse e) ∧ r'.detail = some (.parse e')
  message : ∃ m, r.message = some (Report.sourceMessage m (some source) r.line r.column) ∧
    r'.message = some (Report.sourceMessage m (some source') r'.line r'.column)
  rest : r.withoutPlace = r'.withoutPlace

section Alternatives

variable (s s' : Session) (debug : Bool) (source source' : String)

/-- Both sources have a tree, the same up to lines, and run alike. -/
def BothRun : Prop :=
  ∃ p p', parseSource s.limits.syntaxDepth source = .ok p ∧
    parseSource s'.limits.syntaxDepth source' = .ok p' ∧ p.forgetLines = p'.forgetLines ∧
    SameRuns (s.run debug source) (s'.run debug source')

/-- Both sources are rejected at the same token for the same reason, and change nothing. -/
def BothRejected : Prop :=
  ∃ e e', parseSource s.limits.syntaxDepth source = .error (.malformed (.parse e)) ∧
    parseSource s'.limits.syntaxDepth source' = .error (.malformed (.parse e')) ∧
    SameErrors source source' e e' (s.run debug source).1 (s'.run debug source').1 ∧
    Unchanged s s' (s.run debug source).2 (s'.run debug source').2

/-- The report of a source that nests too deep. -/
def tooDeepReport : Report :=
  .failure "" .internal "InternalError: nesting too deep" []

/-- Both sources nest too deep, and change nothing. -/
def BothTooDeep : Prop :=
  parseSource s.limits.syntaxDepth source = .error .tooDeep ∧
    parseSource s'.limits.syntaxDepth source' = .error .tooDeep ∧
    (s.run debug source).1 = tooDeepReport ∧ (s'.run debug source').1 = tooDeepReport ∧
    Unchanged s s' (s.run debug source).2 (s'.run debug source').2

end Alternatives

variable {s s' : Session} {source source' : String} {ts ts' : List Token}

/-- The context in which the code of a source starts. -/
def logged (s : Session) (debug : Bool) (ts : List Token) : Context :=
  { s.fresh with log := tokenLog (s.environment debug) (ts.map Token.face) }

theorem parseLogged_fresh (hts : tokenize source = .ok ts) (debug : Bool) :
    parseLogged (s.environment debug) source s.fresh =
      (parseEnd [] (parseTokens s.limits.syntaxDepth ts), s.logged debug ts) := by
  rw [parseLogged_apply _ hts]
  simp only [fresh, List.append_nil]
  rfl

/-- A source without a tree is reported and changes nothing. -/
theorem run_of_parse_error (hts : tokenize source = .ok ts) (debug : Bool) {stop : Stop}
    (h : parseEnd [] (parseTokens s.limits.syntaxDepth ts) = .error stop) :
    s.run debug source = (.ofStop "" (some source) stop,
      { s with context := s.logged debug ts }) := by
  simp only [run, parseLogged_fresh hts, h]
  have output : s.shownOutput (s.logged debug ts) = "" := by
    rw [shownOutput]
    split <;> rfl
  have kept : s.keep (s.logged debug ts) = { s with context := s.logged debug ts } := by
    simp [keep, logged, fresh]
  rw [output, kept]

/-- A source with a tree is executed. -/
theorem run_of_tree (hts : tokenize source = .ok ts) (debug : Bool) {p : Program}
    (hp : parseTokens s.limits.syntaxDepth ts = .ok p) :
    s.run debug source =
      s.ended (execProgram (s.environment debug) s.limits.steps p (s.logged debug ts)) := by
  rw [run_eq, parseLogged_fresh hts, hp]
  rfl

/-- Sessions that differ in lines alone differ in their contexts alone. -/
theorem eq_of_same (same : s.forgetLines = s'.forgetLines) :
    ∃ d : Context, s' = { s with context := d } ∧ s.context.forgetLines = d.forgetLines := by
  obtain ⟨files, directory, captures, limits, c, transcript⟩ := s
  obtain ⟨files', directory', captures', limits', d, transcript'⟩ := s'
  obtain ⟨rfl, rfl, rfl, rfl, hcd, rfl⟩ := Session.mk.inj same
  exact ⟨d, rfl, hcd⟩

section SameSessions

variable (same : s.forgetLines = s'.forgetLines)

include same

theorem logged_of_same (faces : ts.map Token.face = ts'.map Token.face) (debug : Bool) :
    (s.logged debug ts).forgetLines = (s'.logged debug ts').forgetLines := by
  obtain ⟨d, rfl, hd⟩ := eq_of_same same
  rw [logged, logged, faces]
  let log := tokenLog (s.environment debug) (ts'.map Token.face)
  exact congrArg (fun c : Context => { c with frame := .top, output := "", log := log }) hd

theorem sameUpTo_of_same : s.SameUpTo .lines s' := by
  obtain ⟨d, rfl, hd⟩ := eq_of_same same
  refine ⟨rfl, rfl, rfl, ?_, rfl⟩
  rw [Context.blur_lines, Context.blur_lines]
  exact hd

theorem keep_of_same {c d : Context} (hcd : c.forgetLines = d.forgetLines) :
    (s.keep c).forgetLines = (s'.keep d).forgetLines := by
  obtain ⟨_, rfl, _⟩ := eq_of_same same
  exact congrArg (fun c : Context => ({ s with
    context := { c with frame := .top }, transcript := s.transcript ++ c.output } : Session)) hcd

theorem sameRuns_ended {x y : Except Stop Outcome × Context} (hend : EndAlike .lines Eq x.1 y.1)
    (hcd : x.2.forgetLines = y.2.forgetLines) : SameRuns (s.ended x) (s'.ended y) := by
  constructor
  · rw [← Context.blur_lines, ← Context.blur_lines] at hcd
    exact ((sameUpTo_of_same same).ended hend hcd).report
  · rw [ended_snd, ended_snd]
    exact keep_of_same same hcd

/-- Trees that differ in lines alone run alike. -/
theorem sameRuns_of_trees (hts : tokenize source = .ok ts) (hts' : tokenize source' = .ok ts')
    (faces : ts.map Token.face = ts'.map Token.face) (debug : Bool) {p p' : Program}
    (hp : parseTokens s.limits.syntaxDepth ts = .ok p)
    (hp' : parseTokens s'.limits.syntaxDepth ts' = .ok p')
    (trees : p.forgetLines = p'.forgetLines) :
    SameRuns (s.run debug source) (s'.run debug source') := by
  rw [run_of_tree hts debug hp, run_of_tree hts' debug hp']
  have start := logged_of_same same faces debug
  obtain ⟨d, rfl, _⟩ := eq_of_same same
  obtain ⟨hend, hcd⟩ :=
    execProgram_of_forgetLines (s.environment debug) s.limits.steps trees start
  exact sameRuns_ended same hend hcd

end SameSessions

/-- Errors at the same token, for the same reason, are reported alike. -/
theorem sameErrors_of_parse (hts : tokenize source = .ok ts) (hts' : tokenize source' = .ok ts')
    (debug : Bool) {e e' : ParseError}
    (hp : parseTokens s.limits.syntaxDepth ts = .error (.unexpected e))
    (hp' : parseTokens s'.limits.syntaxDepth ts' = .error (.unexpected e'))
    (errors : e.forgetPlaces = e'.forgetPlaces) :
    SameErrors source source' e e' (s.run debug source).1 (s'.run debug source').1 := by
  have report : (s.run debug source).1 = .ofSourceError "" (some source) (.parse e) :=
    congrArg Prod.fst (run_of_parse_error hts debug (by rw [hp]; rfl))
  have report' : (s'.run debug source').1 = .ofSourceError "" (some source') (.parse e') :=
    congrArg Prod.fst (run_of_parse_error hts' debug (by rw [hp']; rfl))
  have found := ParseError.found_of_same errors
  have message := ParseError.message_of_same errors
  rw [report, report']
  refine ⟨(ParseError.mk.inj errors).1, found, rfl, ⟨rfl, rfl⟩, ?_, ?_⟩
  · exact ⟨"ParseError: " ++ e.message, rfl, by rw [message]; rfl⟩
  · rw [Report.withoutPlace_parse, Report.withoutPlace_parse]

theorem unchanged_of_parse_error (hts : tokenize source = .ok ts)
    (hts' : tokenize source' = .ok ts') (same : s.forgetLines = s'.forgetLines)
    (faces : ts.map Token.face = ts'.map Token.face) (debug : Bool) {stop stop' : Stop}
    (hp : parseEnd [] (parseTokens s.limits.syntaxDepth ts) = .error stop)
    (hp' : parseEnd [] (parseTokens s'.limits.syntaxDepth ts') = .error stop') :
    Unchanged s s' (s.run debug source).2 (s'.run debug source').2 := by
  obtain ⟨d, rfl, _⟩ := eq_of_same same
  rw [run_of_parse_error hts debug hp, run_of_parse_error hts' debug hp', logged, logged, ← faces]
  exact ⟨_, rfl, rfl⟩

end Session

open Session

theorem le_length_of_tooDeep {depth : Nat} {ts : List Token}
    (h : parseTokens depth ts = .error .tooDeep) : depth ≤ ts.length + 1 := by
  rcases Parser.alike_wholeProgram depth ts with ⟨hdepth, _⟩ | ⟨pre, rest, out, rfl, hread, _⟩
  · omega
  · rw [parseTokens, hread rest rfl] at h
    cases out <;> cases h

/-- Two sources whose tokens differ in places alone, run in sessions that differ in the lines of
stored trees alone, are both run alike or both rejected alike, unless both nest too deep, which
takes as many tokens as there may be levels, or one less. -/
theorem layout_independence {s s' : Session} (same : s.forgetLines = s'.forgetLines)
    {source source' : String} {ts ts' : List Token} (hts : tokenize source = .ok ts)
    (hts' : tokenize source' = .ok ts') (faces : ts.map Token.face = ts'.map Token.face)
    (debug : Bool) :
    BothRun s s' debug source source' ∨ BothRejected s s' debug source source' ∨
      s.limits.syntaxDepth ≤ ts.length + 1 ∧ BothTooDeep s s' debug source source' := by
  have alike : ParseAlike (parseTokens s.limits.syntaxDepth ts)
      (parseTokens s'.limits.syntaxDepth ts') := by
    obtain ⟨_, rfl, _⟩ := eq_of_same same
    exact parseAlike_of_faces faces _
  generalize hp : parseTokens s.limits.syntaxDepth ts = r,
    hp' : parseTokens s'.limits.syntaxDepth ts' = r' at alike
  have parsed := parseSource_of_tokenize hts s.limits.syntaxDepth
  have parsed' := parseSource_of_tokenize hts' s'.limits.syntaxDepth
  rw [hp] at parsed
  rw [hp'] at parsed'
  have unchanged {stop stop' : Stop} (h : parseEnd [] r = .error stop)
      (h' : parseEnd [] r' = .error stop') :
      Unchanged s s' (s.run debug source).2 (s'.run debug source').2 :=
    unchanged_of_parse_error hts hts' same faces debug (hp ▸ h) (hp' ▸ h')
  cases alike with
  | trees trees =>
    exact Or.inl ⟨_, _, parsed, parsed', trees,
      sameRuns_of_trees same hts hts' faces debug hp hp' trees⟩
  | errors errors =>
    exact Or.inr (Or.inl ⟨_, _, parsed, parsed',
      sameErrors_of_parse hts hts' debug hp hp' errors, unchanged rfl rfl⟩)
  | tooDeep =>
    have report := run_of_parse_error hts debug (show parseEnd [] _ = _ by rw [hp]; rfl)
    have report' := run_of_parse_error hts' debug (show parseEnd [] _ = _ by rw [hp']; rfl)
    exact Or.inr (Or.inr ⟨le_length_of_tooDeep hp, parsed, parsed', congrArg Prod.fst report,
      congrArg Prod.fst report', unchanged rfl rfl⟩)

/-- A statement on one line, and on three. -/
theorem layout_independence_print :
    tokenize "print x" = .ok [⟨.identifier, "print", 1, 1⟩, ⟨.identifier, "x", 1, 7⟩] ∧
      tokenize "print\n\n  x" = .ok [⟨.identifier, "print", 1, 1⟩, ⟨.identifier, "x", 3, 3⟩] ∧
      (BothRun (.start ⟨"", []⟩ none true "") (.start ⟨"", []⟩ none true "") false "print x"
          "print\n\n  x" ∨
        BothRejected (.start ⟨"", []⟩ none true "") (.start ⟨"", []⟩ none true "") false "print x"
          "print\n\n  x" ∨
        Limits.standard.syntaxDepth ≤ 2 + 1 ∧
          BothTooDeep (.start ⟨"", []⟩ none true "") (.start ⟨"", []⟩ none true "") false "print x"
            "print\n\n  x") := by
  have line : scan "print x" =
      ⟨[⟨.identifier, "print", 1, 1⟩, ⟨.identifier, "x", 1, 7⟩], none⟩ := by decide +kernel
  have lines : scan "print\n\n  x" =
      ⟨[⟨.identifier, "print", 1, 1⟩, ⟨.identifier, "x", 3, 3⟩], none⟩ := by decide +kernel
  have tokens := tokenize_of_scan line
  have tokens' := tokenize_of_scan lines
  exact ⟨tokens, tokens', layout_independence rfl tokens tokens' rfl false⟩

/-- A source of nothing but opening parentheses. -/
def openings (n : Nat) : String :=
  String.ofList (List.replicate n '(')

theorem scanFrom_openings (n : Nat) (read : List Token) (p : Position) :
    ∃ ts : List Token, Scan.scanFrom read p 0 (List.replicate n '(') = ⟨read.reverse ++ ts, none⟩ ∧
      ts.map Token.face = List.replicate n (.lparen, "(") := by
  induction n generalizing read p with
  | zero => exact ⟨[], by rw [List.append_nil]; rfl, rfl⟩
  | succ n ih =>
    obtain ⟨ts, hscan, hfaces⟩ := ih (⟨.lparen, "(", p.line, p.column⟩ :: read) (p.next '(')
    refine ⟨⟨.lparen, "(", p.line, p.column⟩ :: ts, ?_, congrArg (List.cons _) hfaces⟩
    rw [List.reverse_cons, List.append_assoc] at hscan
    exact hscan

theorem tokenize_openings (n : Nat) : ∃ ts, tokenize (openings n) = .ok ts ∧
    ts.map Token.face = List.replicate n (.lparen, "(") := by
  obtain ⟨ts, hscan, hfaces⟩ := scanFrom_openings n [] .start
  refine ⟨ts, ?_, hfaces⟩
  apply tokenize_of_scan
  rw [scan, openings, String.toList_ofList, hscan]
  rfl

namespace Parser

variable {α β : Type}

theorem bind_of_error {p : Parser α} {k : α → Parser β} {ts : List Token} {e : ParseFailure}
    (h : p ts = .error e) : (p >>= k) ts = .error e := by
  rw [bind_apply, h]

theorem binary_of_error {p : Parser Expr} {ts : List Token} {e : ParseFailure}
    (h : p ts = .error e) (levels : Nat) : binary p levels ts = .error e := by
  induction levels with
  | zero => exact h
  | succ levels ih => exact bind_of_error ih

theorem exists_opening {n : Nat} {ts : List Token}
    (h : ts.map Token.face = List.replicate (n + 1) (.lparen, "(")) :
    ∃ line column rest, ts = ⟨.lparen, "(", line, column⟩ :: rest ∧
      rest.map Token.face = List.replicate n (.lparen, "(") := by
  rcases ts with _ | ⟨⟨kind, text, line, column⟩, rest⟩
  · cases h
  · obtain ⟨hface, hrest⟩ := List.cons.inj h
    obtain ⟨rfl, rfl⟩ := Prod.mk.inj hface
    exact ⟨line, column, rest, rfl, hrest⟩

/-- Every opening parenthesis leads one level further in. -/
theorem expression_openings {depth n : Nat} {ts : List Token} (deep : depth ≤ n)
    (h : ts.map Token.face = List.replicate n (.lparen, "(")) :
    expression depth ts = .error .tooDeep := by
  induction depth generalizing n ts with
  | zero => rfl
  | succ depth ih =>
    cases n with
    | zero => cases deep
    | succ n =>
      obtain ⟨line, column, rest, rfl, hrest⟩ := exists_opening h
      have inner : closing (expression depth) rest = .error .tooDeep :=
        bind_of_error (ih (Nat.le_of_succ_le_succ deep) hrest)
      have first : operand (expression depth) (⟨.lparen, "(", line, column⟩ :: rest) =
          .error .tooDeep := bind_of_error inner
      have operators : unary (operand (expression depth))
          (⟨.lparen, "(", line, column⟩ :: rest) = .error .tooDeep := first
      exact binary_of_error operators _

theorem statement_openings {depth n : Nat} {ts : List Token} (deep : depth ≤ n + 1)
    (h : ts.map Token.face = List.replicate (n + 1) (.lparen, "(")) :
    statement depth ts = .error .tooDeep := by
  cases depth with
  | zero => rfl
  | succ depth =>
    have inner := expression_openings (Nat.le_of_succ_le deep) h
    obtain ⟨line, column, rest, rfl, hrest⟩ := exists_opening h
    have started : (expression depth >>= fun e => afterExpression (expression depth) e line)
        (⟨.lparen, "(", line, column⟩ :: rest) = .error .tooDeep := bind_of_error inner
    have simple : simple (expression depth) (⟨.lparen, "(", line, column⟩ :: rest) =
        .error .tooDeep := by
      cases rest <;> exact started
    have whole : simpleStatement ⟨expression depth, statement depth⟩
        (⟨.lparen, "(", line, column⟩ :: rest) = .error .tooDeep := bind_of_error simple
    exact whole

theorem many_of_error {item : Parser (Option α)} {t : Token} {ts : List Token} {e : ParseFailure}
    (h : item (t :: ts) = .error e) : many item (t :: ts) = .error e := by
  have more : oneMore item [] (t :: ts) = .error e := bind_of_error h
  have first : iterate (oneMore item) (t :: ts) [] (t :: ts) = .error e := bind_of_error more
  exact first

theorem program_openings {depth n : Nat} {ts : List Token} (deep : depth ≤ n + 1)
    (h : ts.map Token.face = List.replicate (n + 1) (.lparen, "(")) :
    program depth ts = .error .tooDeep := by
  have first : separated (statement depth) ts = .error .tooDeep :=
    bind_of_error (statement_openings deep h)
  obtain ⟨line, column, rest, rfl, hrest⟩ := exists_opening h
  have item : whenNext (fun _ => true) (fun _ => separated (statement depth))
      (⟨.lparen, "(", line, column⟩ :: rest) = .error .tooDeep := by
    have tried : (separated (statement depth) >>= fun s => pure (some s))
        (⟨.lparen, "(", line, column⟩ :: rest) = .error .tooDeep := bind_of_error first
    exact tried
  have statements := many_of_error item
  have noSeparator : skipSeparators (⟨.lparen, "(", line, column⟩ :: rest) =
      .ok ((), ⟨.lparen, "(", line, column⟩ :: rest) := rfl
  rw [program, programOf, bind_apply, noSeparator]
  exact bind_of_error statements

end Parser

theorem parseTokens_openings {depth n : Nat} {ts : List Token} (deep : depth ≤ n + 1)
    (h : ts.map Token.face = List.replicate (n + 1) (.lparen, "(")) :
    parseTokens depth ts = .error .tooDeep := by
  rw [parseTokens, Parser.program_openings deep h]

/-- Nine thousand opening parentheses are tokens, but the parser neither makes a tree of them nor
rejects one of them: the run ends with an internal error. -/
theorem nine_thousand_openings :
    (∃ ts, tokenize (openings 9000) = .ok ts) ∧
      ¬(BothRun (.start ⟨"", []⟩ none true "") (.start ⟨"", []⟩ none true "") false
          (openings 9000) (openings 9000) ∨
        BothRejected (.start ⟨"", []⟩ none true "") (.start ⟨"", []⟩ none true "") false
          (openings 9000) (openings 9000)) ∧
      ((Session.start ⟨"", []⟩ none true "").run false (openings 9000)).1 = tooDeepReport := by
  obtain ⟨ts, hts, faces⟩ := tokenize_openings 9000
  have deep : parseTokens Limits.standard.syntaxDepth ts = .error .tooDeep :=
    parseTokens_openings (n := 8999) (by decide) faces
  have noTree : parseSource Limits.standard.syntaxDepth (openings 9000) = .error .tooDeep := by
    rw [parseSource_of_tokenize hts, deep]
    rfl
  refine ⟨⟨ts, hts⟩, ?_, ?_⟩
  · rintro (⟨p, _, parsed, _⟩ | ⟨e, _, parsed, _⟩)
    · cases noTree.symm.trans parsed
    · cases noTree.symm.trans parsed
  · have run := run_of_parse_error (s := .start ⟨"", []⟩ none true "") hts false
      (congrArg (parseEnd []) deep)
    exact congrArg Prod.fst run

end ClassScript
