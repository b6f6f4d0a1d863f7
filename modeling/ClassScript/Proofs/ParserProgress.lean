import ClassScript.Proofs.ParserSoundness

/-!
# The parser ends on every list of tokens

A parser of the grammar that succeeds has taken a token, and one that fails does so at one of the
tokens or at the end of them. The parsers call each other in a circle, but each calls only with fewer
tokens left, or with as many and further down the grammar: statements stand above expressions, these
above the levels of operators, and the levels above operands and primary expressions. So a number
of frames that is linear in the number of tokens is enough for every call.
-/

namespace ClassScript.Parser

variable {α : Type} {n : Nat}

/-- A word that starts a statement, which is not looked at, and what follows it. -/
def pastWord (rest : Nat → Parser α) : Parser α := do
  match ← peek with
  | none => fail .statement
  | some t => do
    skip
    rest t.line

/-- The parsers of the grammar. Level 0 of the operators is that of the prefix operators. -/
inductive Routine where
  | statement
  | block
  | simple
  | expression
  | level (k : Fin (BinaryOp.levels + 1))
  | operand
  | primary
  | arguments
  | params
  | member
  | signature
  | classDecl
  | interfaceDecl
  | function
  | conditional
  | whileLoop
  | forLoop
  | returnValue
  | throwValue
  | importModule
  | tryBlock

namespace Routine

/-- What the parser answers with. -/
def Answer : Routine → Type
  | block => Block
  | simple => Simple
  | expression | level _ | operand | primary => Expr
  | arguments => List Expr
  | params => List String
  | member => Member
  | signature => Signature
  | _ => Stmt

/-- The parser, made of the parsers `p` one level further in. -/
def parser (p : Inner) : (r : Routine) → Parser r.Answer
  | statement => statementStep p
  | block => Parser.block p
  | simple => Parser.simple p.expression
  | expression => expressionStep p.expression
  | level k => binary (unary (Parser.operand p.expression)) k
  | operand => Parser.operand p.expression
  | primary => Parser.primary p.expression
  | arguments => parenthesized p.expression
  | params => Parser.params
  | member => Parser.member p
  | signature => Parser.signature
  | classDecl => pastWord (Parser.classDecl p)
  | interfaceDecl => pastWord Parser.interfaceDecl
  | function => pastWord (Parser.function p)
  | conditional => pastWord (Parser.conditional p)
  | whileLoop => pastWord (Parser.whileLoop p)
  | forLoop => pastWord (Parser.forLoop p)
  | returnValue => pastWord (Parser.returnValue p)
  | throwValue => pastWord fun line => valueStatement p (.throwValue · line)
  | importModule => pastWord Parser.importModule
  | tryBlock => pastWord (Parser.tryBlock p)

end Routine

section Words

variable {rest rest' : Nat → Parser α}

theorem alike_pastWord (h : ∀ line, Alike n (rest line) (rest' line)) :
    Alike n (pastWord rest) (pastWord rest') := by
  intro ts
  refine (alike_peek ts).bind fun next left hpeek => ?_
  cases hpeek
  cases ts with
  | nil => exact alike_fail _ []
  | cons t tail => exact (alikeAt_skip (h t.line tail)).mono (Nat.le_succ n)

theorem consumes_pastWord (h : ∀ line, Alike n (rest line) (rest' line)) :
    Consumes (pastWord rest) := by
  intro ts a left hok
  cases ts with
  | nil => cases hok
  | cons t tail => exact Nat.lt_succ_of_le ((h t.line tail).length_le (skip_bind_ok hok))

end Words

section Routines

variable {p q : Inner}

theorem alike_routine (h : p.Alike n q) (r : Routine) : Alike n (r.parser p) (r.parser q) := by
  have hoperand : Alike n (operand p.expression) (operand q.expression) :=
    fun ts => (alike_operand h.expression ts).mono (Nat.le_succ n)
  cases r with
  | statement => exact alike_statementStep h (Nat.le_succ n) h.expression
  | block => exact alike_block h
  | simple => exact alike_simple h.expression h.takesName
  | expression => exact alike_binary (alike_unary hoperand) _
  | level k => exact alike_binary (alike_unary hoperand) k
  | operand => exact hoperand
  | primary => exact fun ts => (alike_primary h.expression ts).mono (Nat.le_succ n)
  | arguments => exact alike_parenthesized h.expression
  | params => exact alike_params
  | member => exact alike_member h
  | signature => exact alike_signature
  | classDecl => exact alike_pastWord (alike_classDecl h)
  | interfaceDecl => exact alike_pastWord alike_interfaceDecl
  | function => exact alike_pastWord (alike_function h)
  | conditional => exact alike_pastWord (alike_conditional h)
  | whileLoop => exact alike_pastWord (alike_whileLoop h)
  | forLoop => exact alike_pastWord (alike_forLoop h)
  | returnValue => exact alike_pastWord (alike_returnValue h)
  | throwValue => exact alike_pastWord fun line => alike_valueStatement h (.throwValue · line)
  | importModule => exact alike_pastWord alike_importModule
  | tryBlock => exact alike_pastWord (alike_tryBlock h)

theorem consumes_block (h : p.Alike n q) : Consumes (block p) := by
  refine .after_bind (n := n) alike_currentLine fun line => ?_
  intro ts b rest hok
  obtain ⟨body, mid, hbody, hrest⟩ := bind_ok hok
  cases body with
  | some statements =>
    cases hrest
    exact advances_after (alike_bodyStatements h) ts statements rest hbody
  | none =>
    obtain ⟨s, _, hs, hpure⟩ := bind_ok hrest
    cases hpure
    have hle := (alikeAt_after (alike_bodyStatements h)).length_le hbody
    have hlt := h.takesStatement mid s rest hs
    omega

theorem consumes_parenthesized {item item' : Parser α} (h : Alike n item item') :
    Consumes (parenthesized item) := by
  refine (consumes_expect "(").bind (n := n) fun _ ts => ?_
  refine ((alike_listedItems h).self ts).bind fun items rest _ => ?_
  exact (alike_expect ")" rest).bind fun _ _ _ => .pure items

/-- A parser of the grammar takes a token. -/
theorem consumes_routine (h : p.Alike n q) (r : Routine) : Consumes (r.parser p) := by
  have hoperand := alike_unary (alike_operand h.expression)
  cases r with
  | statement => exact consumes_statementStep h
  | block => exact consumes_block h
  | simple => exact consumes_simple h.expression h.takesExpression
  | expression => exact consumes_expressionStep h.expression
  | level k => exact consumes_binary hoperand (consumes_unary (consumes_operand h.expression)) k
  | operand => exact consumes_operand h.expression
  | primary => exact consumes_primary h.expression
  | arguments => exact consumes_parenthesized h.expression
  | params => exact consumes_parenthesized (n := n) (alike_name _)
  | member => exact consumes_member h
  | signature => exact consumes_signature
  | classDecl => exact consumes_pastWord (alike_classDecl h)
  | interfaceDecl => exact consumes_pastWord (n := n) alike_interfaceDecl
  | function => exact consumes_pastWord (alike_function h)
  | conditional => exact consumes_pastWord (alike_conditional h)
  | whileLoop => exact consumes_pastWord (alike_whileLoop h)
  | forLoop => exact consumes_pastWord (alike_forLoop h)
  | returnValue => exact consumes_pastWord (alike_returnValue h)
  | throwValue => exact consumes_pastWord fun line => alike_valueStatement h (.throwValue · line)
  | importModule => exact consumes_pastWord (n := n) alike_importModule
  | tryBlock => exact consumes_pastWord (alike_tryBlock h)

end Routines

/-- How a run from `position` ends within the tokens: with a result further on, or with an error
at `position` or further on. -/
inductive EndsWithin (tokens : List Token) (position : Nat) :
    Except ParseFailure (α × List Token) → Prop
  | success {a : α} {stop : Nat} (grown : position < stop) (within : stop ≤ tokens.length) :
      EndsWithin tokens position (.ok (a, tokens.drop stop))
  | failure {expected : Expectation} {stop : Nat} (onwards : position ≤ stop)
      (within : stop ≤ tokens.length) :
      EndsWithin tokens position (.error (.unexpected ⟨expected, tokens.drop stop⟩))

section Positions

variable {tokens : List Token} {position : Nat}

/-- What is left after a part of the tokens begins at a later position. -/
theorem position_of_drop (within : position ≤ tokens.length) {pre rest : List Token}
    (h : tokens.drop position = pre ++ rest) :
    position + pre.length ≤ tokens.length ∧ rest = tokens.drop (position + pre.length) := by
  have hlength := congrArg List.length h
  rw [List.length_drop, List.length_append] at hlength
  refine ⟨by omega, ?_⟩
  rw [← List.drop_drop, h, List.drop_left]

theorem endsWithin_of_ended (within : position ≤ tokens.length) {pre rest : List Token}
    (h : tokens.drop position = pre ++ rest) {out : Except Expectation α}
    (grown : ∀ a, out = .ok a → rest.length < (tokens.drop position).length) :
    EndsWithin tokens position (ended out rest) := by
  obtain ⟨hstop, rfl⟩ := position_of_drop within h
  cases out with
  | error e => exact .failure (Nat.le_add_right _ _) hstop
  | ok a =>
    have hlt := grown a rfl
    simp only [List.length_drop] at hlt
    exact .success (by omega) hstop

/-- A parser of the grammar ends within the tokens. -/
theorem endsWithin_routine (within : position ≤ tokens.length) (r : Routine) :
    EndsWithin tokens position (r.parser whole (tokens.drop position)) := by
  have inner := whole_alike ((tokens.drop position).length + 1)
  rcases alike_routine inner r (tokens.drop position) with ⟨hn, _⟩ | ⟨pre, rest, out, hts, hp, _⟩
  · omega
  · have hrun : r.parser whole (tokens.drop position) = ended out rest := by
      rw [hts]
      exact hp rest rfl
    rw [hrun]
    refine endsWithin_of_ended within hts fun a ha => ?_
    rw [ha] at hrun
    exact consumes_routine inner r _ a rest hrun

end Positions

section Calls

/-- One prefix operator before what `inner` reads, or an operand. -/
def unaryStep (inner operand : Parser Expr) : Parser Expr
  | [] => operand []
  | t :: ts =>
    match unaryOp? t with
    | some op => do
      let (e, rest) ← inner ts
      return (.unary op e t.line, rest)
    | none => operand (t :: ts)

theorem unary_eq_step (operand : Parser Expr) :
    unary operand = unaryStep (unary operand) operand := by
  funext ts
  cases ts <;> rfl

theorem unaryStep_of_op {inner operand : Parser Expr} {t : Token} {op : UnaryOp}
    (hop : unaryOp? t = some op) {ts : List Token} (hhead : ts.head? = some t) :
    unaryStep inner operand ts =
      (do skip; let e ← inner; return .unary op e t.line : Parser Expr) ts := by
  obtain ⟨tail, rfl⟩ := List.head?_eq_some_iff.mp hhead
  rw [unaryStep, hop]
  rfl

theorem unaryStep_of_operand {inner operand : Parser Expr} {ts : List Token}
    (hop : ts.head?.bind unaryOp? = none) : unaryStep inner operand ts = operand ts := by
  cases ts with
  | nil => rfl
  | cons t tail =>
    have ht : unaryOp? t = none := hop
    rw [unaryStep, ht]

theorem alike_unaryStep {inner inner' operand operand' : Parser Expr}
    (hinner : Alike (n - 1) inner inner') (h : Alike n operand operand') :
    Alike n (unaryStep inner operand) (unaryStep inner' operand') := by
  intro ts
  cases hop : ts.head?.bind unaryOp? with
  | none =>
    refine (h ts).of_head (fun ts' hhead => ?_) (fun ts' hhead => ?_)
    · exact unaryStep_of_operand (hhead ▸ hop)
    · exact unaryStep_of_operand (hhead ▸ hop)
  | some op =>
    obtain ⟨t, hhead, ht⟩ := Option.bind_eq_some_iff.mp hop
    obtain ⟨tail, rfl⟩ := List.head?_eq_some_iff.mp hhead
    refine AlikeAt.of_head (fun _ => unaryStep_of_op ht) (fun _ => unaryStep_of_op ht) ?_
    refine (alikeAt_skip ((hinner tail).bind fun e _ _ => ?_)).mono (by omega)
    exact .pure (Expr.unary op e t.line)

namespace Routine

/-- How far up the grammar a parser stands. -/
def rank : Routine → Nat
  | primary => 0
  | operand => 1
  | level k => k + 2
  | expression => 9
  | statement => 10
  | _ => 11

/-- The parser, with `call` for the calls it makes. The levels of operators and what stands right
around them call each other; any other parser calls for expressions and statements. -/
def step (call : (r : Routine) → Parser r.Answer) : (r : Routine) → Parser r.Answer
  | expression => call (level (Fin.last BinaryOp.levels))
  | level ⟨0, h⟩ => unaryStep (call (level ⟨0, h⟩)) (call operand)
  | level ⟨k + 1, h⟩ => chain k (call (level ⟨k, Nat.lt_of_succ_lt h⟩))
  | operand => do
    let first ← call primary
    repeated (postfixStep (call expression)) first
  | r => r.parser ⟨call expression, call statement⟩

/-- The parsers by recursion on a number of turns and the place in the grammar, in this order: a call
that does not go down the grammar takes a turn. -/
def descending : Nat → (r : Routine) → Parser r.Answer
  | 0, _ => tooDeep
  | turns + 1, r => r.step fun r' =>
    if r'.rank < r.rank then descending (turns + 1) r' else descending turns r'
termination_by turns r => (turns, r.rank)

/-- The parsers with a limit on the calls that lie inside each other. -/
def framed : Nat → (r : Routine) → Parser r.Answer
  | 0, _ => tooDeep
  | frames + 1, r => r.step (framed frames)

theorem rank_le (r : Routine) : r.rank ≤ 11 := by
  cases r with
  | level k =>
    have hk : k.val < 7 := k.isLt
    simp only [rank]
    omega
  | _ => decide

end Routine

variable {call : (r : Routine) → Parser r.Answer}

/-- Parsers that read like those without a limit take what these take. -/
theorem Inner.Alike.of_whole {p : Inner} (expression : Parser.Alike n p.expression wholeExpression)
    (statement : Parser.Alike n p.statement wholeStatement) : p.Alike n whole where
  expression := expression
  statement := statement
  takesName := by
    intro t ht tail out rest hend
    exact (whole_alike n).takesName t ht tail out rest ((expression _).eq_of_ended hend)
  takesExpression := by
    intro ts a rest hok
    have hend : p.expression ts = ended (.ok a) rest := hok
    exact (whole_alike n).takesExpression ts a rest ((expression ts).eq_of_ended hend)
  takesStatement := by
    intro ts a rest hok
    have hend : p.statement ts = ended (.ok a) rest := hok
    exact (whole_alike n).takesStatement ts a rest ((statement ts).eq_of_ended hend)

/-- A parser reads like the one without a limit if those it calls do: where it calls without having
taken a token, the one it calls stands further down. -/
theorem alike_step (r : Routine) (inside : ∀ r', Alike (n - 1) (call r') (r'.parser whole))
    (below : ∀ r', r'.rank < r.rank → Alike n (call r') (r'.parser whole)) :
    Alike n (r.step call) (r.parser whole) := by
  have bound : n ≤ n - 1 + 1 := by omega
  have hexpression : Routine.expression.parser whole = wholeExpression := wholeExpression_eq.symm
  have hstatement : Routine.statement.parser whole = wholeStatement := wholeStatement_eq.symm
  have hinside : Alike (n - 1) (call .expression) wholeExpression :=
    hexpression ▸ inside .expression
  have inner : Inner.Alike (n - 1) ⟨call .expression, call .statement⟩ whole :=
    .of_whole hinside (hstatement ▸ inside .statement)
  have others (above : Routine.statement.rank < r.rank) :
      Alike n (r.parser ⟨call .expression, call .statement⟩) (r.parser whole) := by
    have below' : Routine.expression.rank < r.rank := Nat.lt_trans (by decide) above
    have outer : Inner.Alike n ⟨call .expression, call .statement⟩ whole :=
      .of_whole (hexpression ▸ below .expression below') (hstatement ▸ below .statement above)
    exact alike_routine outer r
  cases r with
  | statement =>
    have hbelow : Alike n (call .expression) wholeExpression :=
      hexpression ▸ below .expression (by decide)
    exact alike_statementStep inner bound hbelow
  | expression => exact below _ (by decide)
  | level k =>
    obtain ⟨_ | k, hk⟩ := k
    · have hunary := alike_unaryStep (inside (.level ⟨0, hk⟩)) (below .operand (by simp [Routine.rank]))
      have hparser : Routine.parser whole (.level ⟨0, hk⟩) =
          unaryStep (Routine.parser whole (.level ⟨0, hk⟩)) (Routine.parser whole .operand) :=
        unary_eq_step (operand wholeExpression)
      rw [hparser]
      exact hunary
    · exact alike_chain k (below (.level ⟨k, _⟩) (by simp [Routine.rank]))
  | operand =>
    refine fun ts => (below .primary (by decide) ts).bind fun first rest _ => ?_
    exact (alike_postfixes hinside first rest).mono bound
  | primary => exact fun ts => (alike_primary hinside ts).mono bound
  | _ => exact others (by decide)

theorem alike_descending (turns : Nat) (r : Routine) :
    Alike turns (Routine.descending turns r) (r.parser whole) := by
  induction turns generalizing r with
  | zero =>
    intro ts
    rw [Routine.descending]
    exact Or.inl ⟨Nat.zero_le _, rfl⟩
  | succ turns ih =>
    induction hrank : r.rank using Nat.strongRecOn generalizing r with
    | ind rank ihrank =>
      subst hrank
      rw [Routine.descending]
      refine alike_step r (fun r' => ?_) fun r' below => ?_
      · split
        · exact fun ts => (ihrank r'.rank ‹_› r' rfl ts).mono (Nat.le_succ turns)
        · exact ih r'
      · rw [if_pos below]
        exact ihrank r'.rank below r' rfl

/-- The parsers recurse on the tokens left and the place in the grammar. -/
theorem descending_eq_whole (r : Routine) (ts : List Token) :
    Routine.descending (ts.length + 1) r ts = r.parser whole ts :=
  (alike_descending _ r ts).eq_of_short (Nat.lt_succ_self _)

theorem alike_framed {frames : Nat} {r : Routine} (enough : 12 * n + r.rank ≤ frames + 11) :
    Alike n (Routine.framed frames r) (r.parser whole) := by
  induction frames generalizing n r with
  | zero =>
    have hn : n = 0 := by omega
    exact fun ts => Or.inl ⟨by omega, rfl⟩
  | succ frames ih =>
    refine alike_step r (fun r' => ?_) fun r' below => ?_
    · have hrank := r'.rank_le
      exact ih (by omega)
    · exact ih (by omega)

/-- Frames are enough when there are twelve for each token left and some for the place in the
grammar. -/
theorem framed_eq_whole {frames : Nat} {r : Routine} {ts : List Token}
    (enough : 12 * ts.length + r.rank < frames) :
    Routine.framed frames r ts = r.parser whole ts :=
  (alike_framed (n := ts.length + 1) (by omega) ts).eq_of_short (Nat.lt_succ_self _)

end Calls

section Loops

variable {step : α → Parser (Option α)}

/-- The bound of a repetition plays no part once it has a token for each token left. -/
theorem iterate_of_bound (advances : ∀ a, Advances (step a))
    (declines : ∀ a, Reads (step a) [] none (.ok none)) {bound bound' ts : List Token} (a : α)
    (enough : ts.length ≤ bound.length) (enough' : ts.length ≤ bound'.length) :
    iterate step bound a ts = iterate step bound' a ts := by
  have nothing (bound : List Token) (a : α) : iterate step bound a [] = .ok (a, []) := by
    cases bound with
    | nil => rfl
    | cons t bound =>
      have hnone : step a [] = .ok (none, []) := declines a [] rfl
      rw [iterate, bind_apply, hnone]
      rfl
  induction bound generalizing bound' ts a with
  | nil =>
    obtain rfl := List.length_eq_zero_iff.mp (Nat.le_zero.mp enough)
    rw [nothing, nothing]
  | cons t bound ih =>
    cases bound' with
    | nil =>
      obtain rfl := List.length_eq_zero_iff.mp (Nat.le_zero.mp enough')
      rw [nothing, nothing]
    | cons t' bound' =>
      rw [iterate, iterate, bind_apply, bind_apply]
      cases hrun : step a ts with
      | error e => rfl
      | ok answer =>
        obtain ⟨_ | b, rest⟩ := answer
        · rfl
        · have hlt := advances a ts b rest hrun
          simp only [List.length_cons] at enough enough'
          exact ih b (by omega) (by omega)

/-- A repetition whose steps take tokens goes on until its step declines. -/
theorem repeated_unfold (advances : ∀ a, Advances (step a))
    (declines : ∀ a, Reads (step a) [] none (.ok none)) (a : α) :
    repeated step a = (do
      match ← step a with
      | none => return a
      | some b => repeated step b) := by
  funext ts
  have hlonger : repeated step a ts = iterate step (default :: ts) a ts :=
    iterate_of_bound advances declines a (Nat.le_refl _) (Nat.le_succ _)
  rw [hlonger, iterate, bind_apply, bind_apply]
  cases hrun : step a ts with
  | error e => rfl
  | ok answer =>
    obtain ⟨_ | b, rest⟩ := answer
    · rfl
    · have hlt := advances a ts b rest hrun
      exact iterate_of_bound advances declines b (Nat.le_of_lt hlt) (Nat.le_refl _)

/-- The loops of the grammar, by what they do once. -/
inductive Loop (p : Inner) : {α : Type} → (α → Parser (Option α)) → Prop
  | operators (level : Nat) :
      Loop p (chainStep level (binary (unary (operand p.expression)) level))
  | accesses : Loop p (postfixStep p.expression)
  | arguments : Loop p (oneMore (after "," p.expression))
  | names (role : NameRole) : Loop p (oneMore (after "," (name role)))
  | separators : Loop p (oneMore (after ";" (pure ())))
  | body : Loop p (oneMore (unlessClosed (separated p.statement)))
  | members : Loop p (oneMore (unlessClosed (member p)))
  | signatures : Loop p (oneMore (unlessClosed signature))
  | program : Loop p (oneMore (whenNext (fun _ => true) fun _ => separated p.statement))

theorem Loop.advances {p q : Inner} (h : p.Alike n q) (loop : Loop p step) (a : α) :
    Advances (step a) := by
  cases loop with
  | operators level =>
    exact advances_chainStep level (alike_binary (alike_unary (alike_operand h.expression)) _) a
  | accesses => exact advances_postfixStep h.expression a
  | arguments => exact advances_oneMore (advances_after h.expression) a
  | names role => exact advances_oneMore (advances_after (n := n) (alike_name role)) a
  | separators =>
    exact advances_oneMore (advances_after (n := n) (q := pure ()) fun _ => .pure ()) a
  | body =>
    exact advances_oneMore (advances_whenNext fun _ _ => consumes_separated h.takesStatement) a
  | members => exact advances_oneMore (advances_whenNext fun _ _ => consumes_member h) a
  | signatures => exact advances_oneMore (advances_whenNext fun _ _ => consumes_signature) a
  | program =>
    exact advances_oneMore (advances_whenNext fun _ _ => consumes_separated h.takesStatement) a

theorem Loop.declines {p : Inner} (loop : Loop p step) (a : α) :
    Reads (step a) [] none (.ok none) := by
  cases loop with
  | operators level => exact reads_optionally_end
  | accesses => exact reads_optionally_end
  | _ => exact Reads.bind_pure reads_optionally_end

end Loops

section Limits

/-- The parsers one level further in when `depth` may lie inside each other. -/
def limited (depth : Nat) : Inner :=
  ⟨expression depth, statement depth⟩

theorem limited_alike (depth : Nat) : (limited depth).Alike (depth - 1) whole :=
  .of_whole (fun ts => (alike_wholeExpression depth ts).mono (Nat.sub_le depth 1))
    (alike_wholeStatement depth)

/-- With a limit a run ends as it does without, or finds more tokens than the limit allows for. -/
theorem AlikeAt.same_or_tooDeep {depth : Nat} {p q : Parser α} {ts : List Token}
    (h : AlikeAt (depth - 1) p q ts) :
    p ts = q ts ∨ p ts = .error .tooDeep ∧ depth ≤ ts.length + 1 := by
  rcases h with ⟨hn, hdeep⟩ | ⟨pre, rest, out, rfl, hp, hq⟩
  · exact Or.inr ⟨hdeep, by omega⟩
  · exact Or.inl ((hp rest rfl).trans (hq rest rfl).symm)

end Limits

section Programs

variable {tokens : List Token} {position : Nat}

/-- A program ends with the tokens, or with an error within them. -/
theorem wholeProgram_ends (within : position ≤ tokens.length) :
    (∃ p, wholeProgram (tokens.drop position) = .ok (p, [])) ∨
      ∃ expected stop, position ≤ stop ∧ stop ≤ tokens.length ∧
        wholeProgram (tokens.drop position) =
          .error (.unexpected ⟨expected, tokens.drop stop⟩) := by
  obtain ⟨pre, rest, out, hts, h⟩ := reads_wholeProgram (tokens.drop position)
  have hrun : wholeProgram (tokens.drop position) = ended out rest := by
    rw [hts]
    exact h rest rfl
  cases out with
  | ok p =>
    have hprogram : program ((tokens.drop position).length + 2) (tokens.drop position) =
        .ok (p, rest) := (program_eq_whole (Nat.le_refl _)).trans hrun
    rw [nothing_left_of_program hprogram] at hrun
    exact Or.inl ⟨p, hrun⟩
  | error e =>
    obtain ⟨hstop, rfl⟩ := position_of_drop within hts
    exact Or.inr ⟨e, _, Nat.le_add_right _ _, hstop, hrun⟩

end Programs

/-- The parser ends on every list of tokens, wherever it starts. Each parser of the grammar ends
within the tokens, past the start if it succeeds. It is a recursion on the tokens left and the place
in the grammar, and calls lie inside each other no deeper than twelve times the tokens left and a few
more. A loop goes on until its step declines. A program ends with the last token, or with an error
within the tokens. Where the depth is limited, runs end in the same way unless the limit is no
larger than the number of tokens. -/
theorem ends_on_every_list (tokens : List Token) (position : Nat)
    (within : position ≤ tokens.length) :
    (∀ r : Routine, EndsWithin tokens position (r.parser whole (tokens.drop position)) ∧
      Routine.descending (tokens.length - position + 1) r (tokens.drop position) =
        r.parser whole (tokens.drop position) ∧
      (∀ frames, 12 * (tokens.length - position) + r.rank < frames →
        Routine.framed frames r (tokens.drop position) = r.parser whole (tokens.drop position)) ∧
      ∀ depth, r.parser (limited depth) (tokens.drop position) =
          r.parser whole (tokens.drop position) ∨
        r.parser (limited depth) (tokens.drop position) = .error .tooDeep ∧
          depth ≤ tokens.length - position + 1) ∧
    (∀ {α : Type} (step : α → Parser (Option α)) (a : α), Loop whole step →
      repeated step a = (do
        match ← step a with
        | none => return a
        | some b => repeated step b)) ∧
    ((∃ p, wholeProgram (tokens.drop position) = .ok (p, [])) ∨
      ∃ expected stop, position ≤ stop ∧ stop ≤ tokens.length ∧
        wholeProgram (tokens.drop position) =
          .error (.unexpected ⟨expected, tokens.drop stop⟩)) ∧
    ∀ depth, program depth (tokens.drop position) = wholeProgram (tokens.drop position) ∨
      program depth (tokens.drop position) = .error .tooDeep ∧
        depth ≤ tokens.length - position + 1 := by
  have hlength : (tokens.drop position).length = tokens.length - position := List.length_drop
  rw [← hlength]
  refine ⟨fun r => ⟨endsWithin_routine within r, descending_eq_whole r _, fun _ => framed_eq_whole,
    fun depth => ?_⟩, fun step a loop => ?_, wholeProgram_ends within, fun depth => ?_⟩
  · exact (alike_routine (limited_alike depth) r _).same_or_tooDeep
  · exact repeated_unfold (loop.advances (whole_alike 0)) loop.declines a
  · exact (alike_wholeProgram depth _).same_or_tooDeep

private def openCall : List Token :=
  [⟨.identifier, "f", 1, 1⟩, ⟨.lparen, "(", 1, 2⟩, ⟨.identifier, "a", 1, 3⟩,
    ⟨.comma, ",", 1, 4⟩]

/-- A call that breaks off after a comma. -/
theorem ends_on_openCall :
    1 ≤ openCall.length ∧
    Routine.arguments.parser whole (openCall.drop 1) =
      .error (.unexpected ⟨.expression, openCall.drop 4⟩) ∧
    EndsWithin openCall 1 (Routine.arguments.parser whole (openCall.drop 1)) ∧
    Routine.framed 48 .arguments (openCall.drop 1) =
      Routine.arguments.parser whole (openCall.drop 1) ∧
    ¬∃ p, wholeProgram (openCall.drop 1) = .ok (p, []) := by
  have h := ends_on_every_list openCall 1 (by decide)
  refine ⟨by decide, rfl, (h.1 .arguments).1, (h.1 .arguments).2.2.1 48 (by decide), ?_⟩
  have hfailed : wholeProgram (openCall.drop 1) =
      .error (.unexpected ⟨.symbol ")", openCall.drop 3⟩) := rfl
  rintro ⟨p, hp⟩
  cases hfailed.symm.trans hp

end ClassScript.Parser
