import ClassScript.Grammar
import ClassScript.Proofs.Reading

/-!
# One token of lookahead

Every parser of the grammar decides by what it has taken and the next token. The two places that
look at the second token, before an assignment and after `print`, take the first one whatever they
see. A limit on nesting plays no other part: a parser with a larger limit, or with none, reads what
the limited one reads.

`wholeExpression` and `wholeStatement` are the parsers without a limit.
-/

namespace ClassScript.Parser

variable {α β : Type} {n : Nat}

section Expressions

variable {p q : Parser Expr} {ts : List Token}

theorem reads_unary_op {operand : Parser Expr} {t : Token} {op : UnaryOp} {pre : List Token}
    {next : Option Token} {out : Except Expectation Expr} (ht : unaryOp? t = some op)
    (h : Reads (unary operand) pre next out) :
    Reads (unary operand) (t :: pre) next (out.map fun e => .unary op e t.line) := by
  intro rest hrest
  rw [List.cons_append, unary, ht]
  dsimp only
  rw [h rest hrest]
  cases out <;> rfl

theorem reads_unary {operand : Parser Expr} {pre : List Token} {next : Option Token}
    {out : Except Expectation Expr}
    (hhead : ∀ t, pre.head?.or next = some t → unaryOp? t = none)
    (h : Reads operand pre next out) : Reads (unary operand) pre next out := by
  intro rest hrest
  rw [← h rest hrest]
  have hlist := head?_append_eq pre rest hrest
  cases htokens : pre ++ rest with
  | nil => rfl
  | cons t tail =>
    rw [htokens, List.head?_cons] at hlist
    rw [unary, hhead t hlist.symm]

theorem alike_unary (h : Alike n p q) : Alike n (unary p) (unary q) := by
  intro ts
  induction ts with
  | nil =>
    rcases h [] with hdeep | ⟨pre, rest, out, hts, hp, hq⟩
    · exact Or.inl hdeep
    · obtain ⟨rfl, rfl⟩ := List.append_eq_nil_iff.mp hts.symm
      have hhead : ∀ t, ([] : List Token).head?.or none = some t → unaryOp? t = none := by
        intro t ht; cases ht
      exact .here (reads_unary hhead hp) (reads_unary hhead hq)
  | cons t tail ih =>
    cases hop : unaryOp? t with
    | some op =>
      rcases ih with ⟨hn, hdeep⟩ | ⟨pre, rest, out, rfl, hp, hq⟩
      · refine Or.inl ⟨Nat.le_succ_of_le hn, ?_⟩
        rw [unary, hop]
        dsimp only
        rw [hdeep]
        rfl
      · exact .past (reads_unary_op hop hp) (reads_unary_op hop hq)
    | none =>
      rcases h (t :: tail) with ⟨hn, hdeep⟩ | ⟨pre, rest, out, hts, hp, hq⟩
      · refine Or.inl ⟨hn, ?_⟩
        rw [unary, hop]
        exact hdeep
      · have hhead : ∀ u, pre.head?.or rest.head? = some u → unaryOp? u = none := by
          intro u hu
          rw [← head?_append_eq pre rest rfl, ← hts] at hu
          cases hu
          exact hop
        rw [hts]
        exact .of_reads (reads_unary hhead hp) (reads_unary hhead hq)

theorem consumes_unary (h : Consumes p) : Consumes (unary p) := by
  intro ts
  induction ts with
  | nil => exact h []
  | cons t tail ih =>
    intro a rest hok
    cases hop : unaryOp? t with
    | none => exact h (t :: tail) a rest (by simpa only [unary, hop] using hok)
    | some op =>
      rw [unary, hop] at hok
      dsimp only at hok
      cases htail : unary p tail with
      | error e => rw [htail] at hok; cases hok
      | ok r =>
        rw [htail] at hok
        cases hok
        have hlt := ih r.1 r.2 htail
        simp only [List.length_cons]
        omega

theorem alike_chainStep (level : Nat) (h : Alike n p q) (left : Expr) :
    Alike n (chainStep level p left) (chainStep level q left) := by
  intro ts
  refine alikeAt_optionally fun t tail op hts _ => ?_
  rw [hts]
  exact (alikeAt_skip ((h tail).bind fun _ _ _ => .pure _)).mono (Nat.le_succ n)

theorem advances_chainStep (level : Nat) (h : Alike n p q) (left : Expr) :
    Advances (chainStep level p left) := by
  refine advances_optionally fun t op tail a rest _ hok => ?_
  obtain ⟨e, mid, hmid, hpure⟩ := bind_ok (skip_bind_ok hok)
  cases hpure
  exact (h tail).length_le hmid

theorem alike_links (level : Nat) (h : Alike n p q) (first : Expr) :
    Alike n (repeated (chainStep level p) first) (repeated (chainStep level q) first) :=
  alike_repeated (advances_chainStep level h) (fun _ => reads_optionally_end)
    (fun _ => reads_optionally_end) (alike_chainStep level h) first

theorem alike_chain (level : Nat) (h : Alike n p q) : Alike n (chain level p) (chain level q) :=
  fun ts => (h ts).bind fun first rest _ => alike_links level h first rest

theorem consumes_chain (level : Nat) (h : Alike n p q) (consumes : Consumes p) :
    Consumes (chain level p) :=
  consumes.bind fun first => (alike_links level h first).self

theorem alike_binary (h : Alike n p q) (levels : Nat) :
    Alike n (binary p levels) (binary q levels) := by
  induction levels with
  | zero => exact h
  | succ levels ih => exact alike_chain levels ih

theorem consumes_binary (h : Alike n p q) (consumes : Consumes p) (levels : Nat) :
    Consumes (binary p levels) := by
  induction levels with
  | zero => exact consumes
  | succ levels ih => exact consumes_chain levels (alike_binary h levels) ih

theorem alike_arguments? (h : Alike n p q) : Alike n (arguments? p) (arguments? q) :=
  fun _ => alikeAt_whenNext fun _ _ _ _ => alike_parenthesized h _

theorem alike_afterPoint (h : Alike n p q) (target : Expr) (line : Nat) :
    Alike n (afterPoint p target line) (afterPoint q target line) := by
  intro ts
  refine (alike_name _ ts).bind fun member rest _ => ?_
  refine (alike_arguments? h rest).bind fun args rest _ => ?_
  cases args with
  | some args => exact .pure _
  | none => exact .pure _

theorem alike_postfixStep (h : Alike n p q) (target : Expr) :
    Alike (n + 1) (postfixStep p target) (postfixStep q target) := by
  intro ts
  refine alikeAt_whenNext fun dot tail hts _ => ?_
  rw [hts]
  exact alikeAt_skip (alike_afterPoint h target dot.line tail)

theorem advances_postfixStep (h : Alike n p q) (target : Expr) : Advances (postfixStep p target) :=
  advances_optionally fun dot _ tail _ _ _ hok =>
    (alike_afterPoint h target dot.line tail).length_le (skip_bind_ok hok)

theorem alike_newObject (line : Nat) : Alike n (newObject line) (newObject line) := by
  intro ts
  refine (alike_name _ ts).bind fun c rest _ => ?_
  exact ((alikeAt_after (alike_expect ")")).mono (Nat.le_succ n)).bind fun _ _ _ => .pure _

theorem alike_superCall (h : Alike n p q) (line : Nat) :
    Alike n (superCall p line) (superCall q line) := by
  intro ts
  refine (alike_expect "." ts).bind fun _ rest _ => (alike_name _ rest).bind fun m rest _ => ?_
  exact (alike_parenthesized h rest).bind fun _ _ _ => .pure _

theorem alike_closing (h : Alike n p q) : Alike n (closing p) (closing q) := by
  intro ts
  refine (h ts).bind fun e rest _ => ?_
  exact (alike_expect ")" rest).bind fun _ _ _ => .pure e

theorem alike_afterName (h : Alike n p q) (t : Token) :
    Alike n (afterName p t) (afterName q t) := by
  intro ts
  refine (alikeAt_whenNext fun _ _ _ _ => alike_parenthesized h _).bind fun args rest _ => ?_
  cases args with
  | some args => exact .pure _
  | none => exact .pure _

theorem alike_afterKeyword? (h : Alike n p q) (t : Token) :
    Option.Rel (Alike n) (afterKeyword? p t) (afterKeyword? q t) := by
  unfold afterKeyword?
  split
  · exact .some fun _ => .pure _
  · exact .some fun _ => .pure _
  · exact .some fun _ => .pure _
  · exact .some fun _ => .pure _
  · exact .some (alike_newObject _)
  · exact .some (alike_superCall h _)
  · exact .none

theorem alike_afterFirst? (h : Alike n p q) (t : Token) :
    Option.Rel (Alike n) (afterFirst? p t) (afterFirst? q t) := by
  unfold afterFirst?
  split
  · exact .some fun _ => .pure _
  · exact .some fun _ => .pure _
  · exact .some (alike_afterName h t)
  · exact .some (alike_closing h)
  · exact alike_afterKeyword? h t
  · exact .none

/-- The inner expressions of a primary one come after its first token. -/
theorem alike_primary (h : Alike n p q) : Alike (n + 1) (primary p) (primary q) := by
  intro ts
  refine (alike_peek ts).bind fun next rest hpeek => ?_
  cases hpeek
  cases ts with
  | nil => exact alike_fail _ []
  | cons t tail =>
    exact alikeAt_pastFirst (alike_afterFirst? h t) (Nat.le_refl _) (alike_fail _ _)

theorem consumes_primary (h : Alike n p q) : Consumes (primary p) := by
  intro ts a rest hok
  cases ts with
  | nil => cases hok
  | cons t tail =>
    have hpast : pastFirst (afterFirst? p t) (fail .expression) (t :: tail) = .ok (a, rest) := hok
    have hle := pastFirst_length_le (alike_afterFirst? h t) (consumes_fail _) hpast
    simp only [List.length_cons]
    omega

theorem alike_postfixes (h : Alike n p q) (first : Expr) :
    Alike (n + 1) (repeated (postfixStep p) first) (repeated (postfixStep q) first) :=
  alike_repeated (advances_postfixStep h) (fun _ => reads_optionally_end)
    (fun _ => reads_optionally_end) (alike_postfixStep h) first

theorem alike_operand (h : Alike n p q) : Alike (n + 1) (operand p) (operand q) :=
  fun ts => (alike_primary h ts).bind fun first rest _ => alike_postfixes h first rest

theorem consumes_operand (h : Alike n p q) : Consumes (operand p) :=
  (consumes_primary h).bind fun first => (alike_postfixes h first).self

theorem alike_expressionStep (h : Alike n p q) :
    Alike (n + 1) (expressionStep p) (expressionStep q) :=
  alike_binary (alike_unary (alike_operand h)) _

theorem consumes_expressionStep (h : Alike n p q) : Consumes (expressionStep p) :=
  consumes_binary (alike_unary (alike_operand h)) (consumes_unary (consumes_operand h)) _

section Operands

variable {pre : List Token} {next : Option Token} {e : Expr}

theorem reads_primary {t : Token} {r : Parser Expr} {out : Except Expectation Expr}
    (ht : afterFirst? p t = some r) (h : Reads r pre next out) :
    Reads (primary p) (t :: pre) next out := by
  refine reads_peek.bind_nil ?_
  simp only [List.head?_cons, Option.some_or, ht]
  exact (reads_skip t).bind h

/-- An operand is a whole expression where no operator follows. -/
theorem reads_binary_of_operand (h : Reads p pre next (.ok e)) (hnext : next.bind binaryOp? = none)
    (levels : Nat) : Reads (binary p levels) pre next (.ok e) := by
  induction levels with
  | zero => exact h
  | succ level ih =>
    refine ih.bind_last (reads_repeated_none (reads_optionally_none ?_))
    cases next with
    | none => rfl
    | some t =>
      have ht : binaryOp? t = none := hnext
      simp [operatorOf?, ht]

end Operands

/-- A parser that takes the first token `t` however it ends. -/
def TakesFirst (p : Parser α) (t : Token) : Prop :=
  ∀ tail out rest, p (t :: tail) = ended out rest → rest.length ≤ tail.length

theorem TakesFirst.bind {p : Parser α} {k k' : α → Parser β} {t : Token} (hp : TakesFirst p t)
    (hk : ∀ a, Alike n (k a) (k' a)) : TakesFirst (p >>= k) t := by
  intro tail out rest hend
  rw [bind_apply] at hend
  cases hrun : p (t :: tail) with
  | ok r =>
    rw [hrun] at hend
    have hmid := hp tail (.ok r.1) r.2 hrun
    have hrest := (hk r.1 r.2).ended_length_le hend
    omega
  | error e =>
    rw [hrun] at hend
    cases out with
    | ok b => cases hend
    | error expected =>
      cases hend
      exact hp tail (.error expected) rest hrun

theorem takesFirst_skip {t : Token} : TakesFirst skip t := by
  intro tail out rest hend
  cases out <;> cases hend
  exact Nat.le_refl _

/-- An expression takes a name that stands first, whatever follows it. -/
theorem takesFirst_expressionStep (h : Alike n p q) {t : Token} (ht : t.kind = .identifier) :
    TakesFirst (expressionStep p) t := by
  have hprimary : TakesFirst (primary p) t := by
    intro tail out rest hend
    have hafter : afterFirst? p t = some (afterName p t) := by rw [afterFirst?, ht]
    have hname : afterName p t tail = ended out rest := by
      rw [← hend, primary, bind_apply]
      simp only [peek, List.head?_cons, hafter]
      rfl
    exact (alike_afterName h t tail).ended_length_le hname
  have hoperand : TakesFirst (operand p) t := hprimary.bind (alike_postfixes h)
  have hunary : TakesFirst (unary (operand p)) t := by
    intro tail out rest hend
    have hop : unaryOp? t = none := by simp [unaryOp?, ht]
    rw [unary, hop] at hend
    exact hoperand tail out rest hend
  have hbinary (levels : Nat) : TakesFirst (binary (unary (operand p)) levels) t := by
    induction levels with
    | zero => exact hunary
    | succ levels ih =>
      exact ih.bind (alike_links levels (alike_binary (alike_unary (alike_operand h)) levels))
  exact hbinary _

end Expressions

section SecondToken

variable {f g : Option Token → Option Token → Parser α} {t : Token}

/-- A choice made by the first two tokens, where the first one is taken. -/
theorem reads_second {pre : List Token} {next : Option Token} {out : Except Expectation α}
    (h : Reads (f (some t) (pre.head?.or next)) (t :: pre) next out) :
    Reads (do f (← peek) (← peekSecond)) (t :: pre) next out := by
  intro rest hrest
  rw [← h rest hrest, ← head?_append_eq pre rest hrest]
  rfl

theorem alikeAt_second {tail : List Token} (takes : TakesFirst (do f (← peek) (← peekSecond)) t)
    (h : AlikeAt n (f (some t) tail.head?) (g (some t) tail.head?) (t :: tail)) :
    AlikeAt n (do f (← peek) (← peekSecond)) (do g (← peek) (← peekSecond)) (t :: tail) := by
  rcases h with hdeep | ⟨pre, rest, out, hts, hp, hq⟩
  · exact Or.inl hdeep
  · have hend := hp rest rfl
    rw [← hts] at hend
    have hle := takes tail out rest hend
    cases pre with
    | nil =>
      rw [List.nil_append] at hts
      rw [← hts, List.length_cons] at hle
      omega
    | cons u pre =>
      rw [List.cons_append] at hts
      obtain ⟨rfl, rfl⟩ := List.cons_eq_cons.mp hts
      rw [head?_append_eq pre rest rfl] at hp hq
      exact .past (reads_second hp) (reads_second hq)

end SecondToken

section Simple

variable {p q : Parser Expr}

theorem alike_assigned? (h : Alike n p q) : Alike n (assigned? p) (assigned? q) := by
  intro ts
  refine alikeAt_whenNext fun t tail hts _ => ?_
  rw [hts]
  exact (alikeAt_skip (h tail)).mono (Nat.le_succ n)

theorem alike_afterExpression (h : Alike n p q) (e : Expr) (line : Nat) :
    Alike n (afterExpression p e line) (afterExpression q e line) := by
  intro ts
  unfold afterExpression
  cases memberTarget? e with
  | none => exact .pure _
  | some access =>
    refine (alike_assigned? h ts).bind fun value rest _ => ?_
    cases value with
    | some value => exact .pure _
    | none => exact .pure _

theorem alike_simpleFromExpression (h : Alike n p q) :
    Alike n (simpleFromExpression p) (simpleFromExpression q) := by
  intro ts
  refine (alike_currentLine ts).bind fun line rest _ => ?_
  exact (h rest).bind fun e rest _ => alike_afterExpression h e line rest

theorem alikeAt_assignment (h : Alike n p q) (x eq : Token) (tail : List Token) :
    AlikeAt n (assignment p x) (assignment q x) (x :: eq :: tail) := by
  have hvalue (tail : List Token) :
      AlikeAt n (do return Simple.assign x.text (← p) x.line)
        (do return Simple.assign x.text (← q) x.line) tail :=
    (h tail).bind fun _ _ _ => .pure _
  exact (alikeAt_skip (alikeAt_skip (hvalue tail))).mono (by omega)

theorem takesFirst_assignment (h : Alike n p q) (x : Token) : TakesFirst (assignment p x) x :=
  takesFirst_skip.bind fun _ ts => (alike_skip ts).bind fun _ rest _ =>
    (h rest).bind fun value _ _ => .pure (Simple.assign x.text value x.line)

theorem simple_of_assignment {x eq : Token} (hx : x.kind = .identifier) (heq : eq.kind = .assign)
    (tail : List Token) : simple p (x :: eq :: tail) = assignment p x (x :: eq :: tail) :=
  congrFun (if_pos ⟨hx, heq⟩) _

theorem simple_of_not_assignment {x eq : Token} (h : ¬(x.kind = .identifier ∧ eq.kind = .assign))
    (tail : List Token) : simple p (x :: eq :: tail) = simpleFromExpression p (x :: eq :: tail) :=
  congrFun (if_neg h) _

/-- Only a name can start an assignment. -/
theorem simple_of_not_name {ts : List Token} (h : ∀ t, ts.head? = some t → t.kind ≠ .identifier) :
    simple p ts = simpleFromExpression p ts := by
  rcases ts with _ | ⟨x, _ | ⟨eq, tail⟩⟩
  · rfl
  · rfl
  · exact simple_of_not_assignment (fun hassign => h x rfl hassign.1) tail

/-- Where no assignment sign comes second, a simple statement is an expression. -/
theorem reads_simple_of_expression {t : Token} {pre : List Token} {next : Option Token}
    {out : Except Expectation Simple} (h : Reads (simpleFromExpression p) (t :: pre) next out)
    (hsecond : ∀ u, pre.head?.or next = some u → u.kind ≠ .assign) :
    Reads (simple p) (t :: pre) next out := by
  refine reads_second ?_
  cases hu : pre.head?.or next with
  | none => exact h
  | some u =>
    simp only [hsecond u hu, and_false, if_false]
    exact h

theorem takesFirst_simpleFromExpression (h : Alike n p q) {t : Token} (takes : TakesFirst p t) :
    TakesFirst (simpleFromExpression p) t := by
  intro tail out rest hend
  exact (takes.bind fun e => alike_afterExpression h e t.line) tail out rest hend

theorem takesFirst_simple (h : Alike n p q) {t : Token} (takes : TakesFirst p t) :
    TakesFirst (simple p) t := by
  intro tail out rest hend
  cases tail with
  | nil => exact takesFirst_simpleFromExpression h takes _ out rest hend
  | cons eq tail =>
    by_cases hassign : t.kind = .identifier ∧ eq.kind = .assign
    · rw [simple_of_assignment hassign.1 hassign.2] at hend
      exact takesFirst_assignment h t _ out rest hend
    · rw [simple_of_not_assignment hassign] at hend
      exact takesFirst_simpleFromExpression h takes _ out rest hend

theorem alike_simple (h : Alike n p q)
    (takes : ∀ t : Token, t.kind = .identifier → TakesFirst p t) :
    Alike n (simple p) (simple q) := by
  intro ts
  by_cases hname : ∀ t, ts.head? = some t → t.kind ≠ .identifier
  · have alone (p : Parser Expr) (ts' : List Token) (hhead : ts'.head? = ts.head?) :
        simple p ts' = simpleFromExpression p ts' :=
      simple_of_not_name (hhead ▸ hname)
    exact (alike_simpleFromExpression h ts).of_head (alone p) (alone q)
  · obtain ⟨x, hx, hkind⟩ : ∃ x, ts.head? = some x ∧ x.kind = .identifier := by
      simpa using hname
    obtain ⟨tail, rfl⟩ := List.head?_eq_some_iff.mp hx
    refine alikeAt_second (takesFirst_simple h (takes x hkind)) ?_
    cases tail with
    | nil => exact alike_simpleFromExpression h _
    | cons eq tail =>
      dsimp only [List.head?_cons]
      split
      · exact alikeAt_assignment h x eq tail
      · exact alike_simpleFromExpression h _

end Simple

section Statements

/-- The inner parsers `p` and `q` read alike, and those of `p` take what they have to. -/
structure Inner.Alike (n : Nat) (p q : Inner) : Prop where
  expression : Parser.Alike n p.expression q.expression
  statement : Parser.Alike n p.statement q.statement
  takesName : ∀ t : Token, t.kind = .identifier → TakesFirst p.expression t
  takesExpression : Consumes p.expression
  takesStatement : Consumes p.statement

variable {p q : Inner}

theorem alike_separated {s s' : Parser Stmt} (h : Alike n s s') :
    Alike n (separated s) (separated s') := by
  intro ts
  refine (h ts).bind fun statement rest _ => ?_
  exact (alike_skipSeparators rest).bind fun _ _ _ => .pure statement

theorem consumes_separated {s : Parser Stmt} (h : Consumes s) : Consumes (separated s) :=
  h.bind (n := 0) fun statement ts => (alike_skipSeparators ts).bind fun _ _ _ => .pure statement

theorem alike_bodyStatements (h : p.Alike n q) :
    Alike n (bodyStatements p) (bodyStatements q) := by
  intro ts
  refine (alike_skipSeparators ts).bind fun _ rest _ => ?_
  have statements := alike_unlessClosed (consumes_separated h.takesStatement)
    (alike_separated h.statement)
  refine (statements rest).bind fun _ rest _ => ?_
  exact (alike_expect _ rest).bind fun _ _ _ => .pure _

theorem alike_block (h : p.Alike n q) : Alike n (block p) (block q) := by
  intro ts
  refine (alike_currentLine ts).bind fun line rest _ => ?_
  have body : AlikeAt n (after "\x7b" (bodyStatements p)) (after "\x7b" (bodyStatements q)) rest :=
    (alikeAt_after (alike_bodyStatements h)).mono (Nat.le_succ n)
  refine body.bind fun statements rest _ => ?_
  cases statements with
  | some statements => exact .pure _
  | none => exact (h.statement rest).bind fun _ _ _ => .pure _

theorem alike_condition (h : p.Alike n q) : Alike n (condition p) (condition q) :=
  fun ts => (alike_expect "(" ts).bind fun _ rest _ => alike_closing h.expression rest

theorem alike_conditional (h : p.Alike n q) (line : Nat) :
    Alike n (conditional p line) (conditional q line) := by
  intro ts
  refine (alike_condition h ts).bind fun c rest _ => (alike_block h rest).bind fun _ rest _ => ?_
  exact ((alikeAt_after (alike_block h)).mono (Nat.le_succ n)).bind fun _ _ _ => .pure _

theorem alike_whileLoop (h : p.Alike n q) (line : Nat) :
    Alike n (whileLoop p line) (whileLoop q line) := by
  intro ts
  refine (alike_condition h ts).bind fun c rest _ => ?_
  exact (alike_block h rest).bind fun _ _ _ => .pure _

theorem alike_forLoop (h : p.Alike n q) (line : Nat) :
    Alike n (forLoop p line) (forLoop q line) := by
  have header : Alike n (simple p.expression) (simple q.expression) :=
    alike_simple h.expression h.takesName
  intro ts
  refine (alike_expect "(" ts).bind fun _ rest _ => (header rest).bind fun _ rest _ => ?_
  refine (alike_expect ";" rest).bind fun _ rest _ => (h.expression rest).bind fun _ rest _ => ?_
  refine (alike_expect ";" rest).bind fun _ rest _ => (header rest).bind fun _ rest _ => ?_
  refine (alike_expect ")" rest).bind fun _ rest _ => ?_
  exact (alike_block h rest).bind fun _ _ _ => .pure _

theorem alike_params : Alike n params params :=
  alike_parenthesized (alike_name _)

theorem alike_function (h : p.Alike n q) (line : Nat) :
    Alike n (function p line) (function q line) := by
  intro ts
  refine (alike_name _ ts).bind fun f rest _ => (alike_params rest).bind fun ps rest _ => ?_
  exact (alike_block h rest).bind fun _ _ _ => .pure _

theorem alike_returnValue (h : p.Alike n q) (line : Nat) :
    Alike n (returnValue p line) (returnValue q line) := by
  intro ts
  refine (alikeAt_whenNext fun _ _ _ _ => h.expression ts).bind fun value rest _ => ?_
  exact (alike_endSimple rest).bind fun _ _ _ => .pure _

theorem alike_valueStatement (h : p.Alike n q) (make : Expr → Stmt) :
    Alike n (valueStatement p make) (valueStatement q make) := by
  intro ts
  refine (h.expression ts).bind fun value rest _ => ?_
  exact (alike_endSimple rest).bind fun _ _ _ => .pure _

theorem alike_importModule (line : Nat) : Alike n (importModule line) (importModule line) := by
  intro ts
  refine (alike_name _ ts).bind fun m rest _ => ?_
  exact (alike_expect ";" rest).bind fun _ _ _ => .pure _

theorem alike_catchClause (h : p.Alike n q) : Alike n (catchClause p) (catchClause q) := by
  intro ts
  refine (alike_expect "(" ts).bind fun _ rest _ => (alike_name _ rest).bind fun x rest _ => ?_
  refine (alike_expect ")" rest).bind fun _ rest _ => ?_
  exact (alike_block h rest).bind fun _ _ _ => .pure _

theorem alike_afterCatch (h : p.Alike n q) (clause : String × Block) :
    Alike n (afterCatch p clause) (afterCatch q clause) := by
  intro ts
  refine ((alikeAt_after (alike_block h)).mono (Nat.le_succ n)).bind fun f rest _ => ?_
  cases f with
  | some f => exact .pure _
  | none => exact .pure _

theorem alike_handlers (h : p.Alike n q) : Alike n (handlers p) (handlers q) := by
  intro ts
  refine ((alikeAt_after (alike_catchClause h)).mono (Nat.le_succ n)).bind fun c rest _ => ?_
  cases c with
  | some c => exact alike_afterCatch h c rest
  | none =>
    refine ((alikeAt_after (alike_block h)).mono (Nat.le_succ n)).bind fun f rest _ => ?_
    cases f with
    | some f => exact .pure _
    | none => exact alike_fail _ rest

theorem alike_tryBlock (h : p.Alike n q) (line : Nat) :
    Alike n (tryBlock p line) (tryBlock q line) := by
  intro ts
  refine (alike_block h ts).bind fun body rest _ => ?_
  exact (alike_handlers h rest).bind fun _ _ _ => .pure _

theorem alike_access? : Alike n access? access? := by
  intro ts
  refine alikeAt_optionally fun t tail access hts _ => ?_
  rw [hts]
  exact (alikeAt_skip (.pure access)).mono (Nat.le_succ n)

theorem alike_modifiers : Alike n modifiers modifiers := by
  intro ts
  refine (alike_accept "virtual" ts).bind fun isVirtual rest _ => ?_
  split
  · exact .pure _
  · exact (alike_accept "override" rest).bind fun _ _ _ => .pure _

theorem alike_method (h : p.Alike n q) (access : Access) (flags : Bool × Bool) (line : Nat) :
    Alike n (method p access flags line) (method q access flags line) := by
  intro ts
  refine (alike_name _ ts).bind fun m rest _ => (alike_params rest).bind fun ps rest _ => ?_
  exact (alike_block h rest).bind fun _ _ _ => .pure _

theorem alike_field (h : p.Alike n q) (access : Access) (line : Nat) :
    Alike n (field p access line) (field q access line) := by
  intro ts
  refine (alike_name _ ts).bind fun x rest _ => ?_
  refine (alike_assigned? h.expression rest).bind fun _ rest _ => ?_
  exact (alike_expect ";" rest).bind fun _ _ _ => .pure _

theorem alike_member (h : p.Alike n q) : Alike n (member p) (member q) := by
  intro ts
  refine (alike_currentLine ts).bind fun line rest _ => ?_
  refine (alike_access? rest).bind fun word rest _ => ?_
  refine (alike_modifiers rest).bind fun flags rest _ => ?_
  refine ((alikeAt_after (alike_method h _ _ _)).mono (Nat.le_succ n)).bind fun m rest _ => ?_
  cases m with
  | some m => exact .pure m
  | none => exact alike_field h _ _ rest

theorem consumes_member (h : p.Alike n q) : Consumes (member p) := by
  refine .after_bind (n := n) alike_currentLine fun line => ?_
  refine .after_bind (n := n) alike_access? fun word => ?_
  refine .after_bind (n := n) alike_modifiers fun flags => ?_
  intro ts a rest hok
  obtain ⟨m, mid, hmethod, hrest⟩ := bind_ok hok
  cases m with
  | some m =>
    have hlt := advances_after (alike_method h _ _ _) ts m mid hmethod
    cases hrest
    exact hlt
  | none =>
    have hle := (alikeAt_after (alike_method h _ _ _)).length_le hmethod
    have hfield : Consumes (field p (word.getD .privateAccess) line) :=
      (consumes_name _).bind (n := n) fun x rest =>
        (alike_assigned? h.expression.self rest).bind fun _ rest _ =>
          (alike_expect ";" rest).bind fun _ _ _ => .pure _
    have hlt := hfield mid a rest hrest
    omega

theorem alike_classDecl (h : p.Alike n q) (line : Nat) :
    Alike n (classDecl p line) (classDecl q line) := by
  intro ts
  refine (alike_name _ ts).bind fun c rest _ => ?_
  refine ((alikeAt_after (alike_name _)).mono (Nat.le_succ n)).bind fun base rest _ => ?_
  have names : Alike n (commaSeparated (name .interface)) (commaSeparated (name .interface)) :=
    alike_commaSeparated (alike_name _)
  refine ((alikeAt_after names).mono (Nat.le_succ n)).bind fun interfaces rest _ => ?_
  refine (alike_inBraces (consumes_member h) (alike_member h) rest).bind fun members rest _ => ?_
  exact .pure _

theorem alike_signature : Alike n signature signature := by
  intro ts
  refine (alike_currentLine ts).bind fun line rest _ => ?_
  refine (alike_access? rest).bind fun _ rest _ => ?_
  refine (alike_expect "function" rest).bind fun _ rest _ => ?_
  refine (alike_name _ rest).bind fun m rest _ => (alike_params rest).bind fun ps rest _ => ?_
  exact (alike_endSimple rest).bind fun _ _ _ => .pure _

theorem consumes_signature : Consumes signature := by
  refine .after_bind (n := 0) alike_currentLine fun line => ?_
  refine .after_bind (n := 0) alike_access? fun _ => (consumes_expect "function").bind (n := 0) ?_
  intro _ ts
  refine (alike_name _ ts).bind fun m rest _ => (alike_params rest).bind fun ps rest _ => ?_
  exact (alike_endSimple rest).bind fun _ _ _ => .pure _

theorem alike_interfaceDecl (line : Nat) : Alike n (interfaceDecl line) (interfaceDecl line) := by
  intro ts
  refine (alike_name _ ts).bind fun i rest _ => ?_
  exact (alike_inBraces consumes_signature alike_signature rest).bind fun _ _ _ => .pure _

theorem alike_lone (s : Stmt) : Alike n (lone s) (lone s) :=
  fun ts => (alike_endSimple ts).bind fun _ _ _ => .pure s

theorem alike_simpleStatement (h : Alike n p.expression q.expression)
    (takes : ∀ t : Token, t.kind = .identifier → TakesFirst p.expression t) :
    Alike n (simpleStatement p) (simpleStatement q) := by
  intro ts
  refine (alike_simple h takes ts).bind fun s rest _ => ?_
  exact (alike_endSimple rest).bind fun _ _ _ => .pure _

theorem alike_afterStatementWord? (h : p.Alike n q) (t : Token) :
    Option.Rel (Alike n) (afterStatementWord? p t) (afterStatementWord? q t) := by
  unfold afterStatementWord?
  split
  · exact .some (alike_classDecl h _)
  · exact .some (alike_interfaceDecl _)
  · exact .some (alike_function h _)
  · exact .some (alike_conditional h _)
  · exact .some (alike_whileLoop h _)
  · exact .some (alike_forLoop h _)
  · exact .some (alike_returnValue h _)
  · exact .some (alike_tryBlock h _)
  · exact .some (alike_valueStatement h _)
  · exact .some (alike_importModule _)
  · exact .some (alike_lone _)
  · exact .some (alike_lone _)
  · exact .none

theorem consumes_simple {p q : Parser Expr} (h : Alike n p q) (consumes : Consumes p) :
    Consumes (simple p) := by
  have hexpression : Consumes (simpleFromExpression p) :=
    .after_bind (n := n) alike_currentLine fun line =>
      consumes.bind fun e => (alike_afterExpression h e line).self
  have hassignment (x : Token) : Consumes (assignment p x) :=
    .after_bind (n := n) alike_skip fun _ => .after_bind (n := n) alike_skip fun _ =>
      consumes.bind (n := n) fun _ _ => .pure _
  intro ts a rest hok
  rcases ts with _ | ⟨x, _ | ⟨eq, tail⟩⟩
  · exact hexpression _ a rest hok
  · exact hexpression _ a rest hok
  · by_cases hassign : x.kind = .identifier ∧ eq.kind = .assign
    · rw [simple_of_assignment hassign.1 hassign.2] at hok
      exact hassignment x _ a rest hok
    · rw [simple_of_not_assignment hassign] at hok
      exact hexpression _ a rest hok

theorem consumes_simpleStatement (h : Alike n p.expression q.expression)
    (consumes : Consumes p.expression) : Consumes (simpleStatement p) :=
  (consumes_simple h consumes).bind (n := n) fun _ ts =>
    (alike_endSimple ts).bind fun _ _ _ => .pure _

theorem statementStep_of_keyword {t : Token} (ht : t.kind = .keyword) {ts : List Token}
    (hhead : ts.head? = some t) : statementStep p ts = keywordStatement p t ts := by
  rw [statementStep, bind_apply]
  simp only [peek, peekSecond, bind_apply, hhead, ht, if_true]

theorem statementStep_of_name {t : Token} (ht : t.kind = .identifier) (tail : List Token) :
    statementStep p (t :: tail) =
      (if startsPrint t tail.head? then do skip; valueStatement p (.print · t.line)
        else simpleStatement p) (t :: tail) := by
  have hkeyword : t.kind ≠ .keyword := by rw [ht]; decide
  rw [statementStep, bind_apply]
  simp only [peek, peekSecond, bind_apply, List.head?_cons, List.tail_cons, hkeyword, if_false]

theorem statementStep_of_not_print {t : Token} (ht : t.kind = .identifier)
    (htext : t.text ≠ "print") {ts : List Token} (hhead : ts.head? = some t) :
    statementStep p ts = simpleStatement p ts := by
  obtain ⟨tail, rfl⟩ := List.head?_eq_some_iff.mp hhead
  rw [statementStep_of_name ht]
  simp [startsPrint, htext]

theorem statementStep_of_symbol {t : Token} (ht : t.kind ≠ .keyword) (hname : t.kind ≠ .identifier)
    {ts : List Token} (hhead : ts.head? = some t) : statementStep p ts = simpleStatement p ts := by
  rw [statementStep, bind_apply]
  simp only [peek, peekSecond, bind_apply, hhead, ht, startsPrint, hname, decide_false,
    Bool.false_and, if_false, Bool.false_eq_true]

theorem alikeAt_keywordStatement {m : Nat} (h : p.Alike m q) (bound : n ≤ m + 1)
    (hexpression : Alike n p.expression q.expression) (t : Token) (tail : List Token) :
    AlikeAt n (keywordStatement p t) (keywordStatement q t) (t :: tail) := by
  refine alikeAt_pastFirst (alike_afterStatementWord? h t) bound ?_
  split
  · exact alike_simpleStatement hexpression h.takesName _
  · exact alike_fail _ _

theorem takesFirst_simpleStatement (h : p.Alike n q) {t : Token} (ht : t.kind = .identifier) :
    TakesFirst (simpleStatement p) t := by
  refine TakesFirst.bind (n := n) ?_ fun s ts => (alike_endSimple ts).bind fun _ _ _ => .pure _
  exact takesFirst_simple h.expression (h.takesName t ht)

theorem takesFirst_statementStep (h : p.Alike n q) {t : Token} (ht : t.kind = .identifier) :
    TakesFirst (statementStep p) t := by
  intro tail out rest hend
  rw [statementStep_of_name ht] at hend
  split at hend
  · exact (takesFirst_skip.bind fun _ => alike_valueStatement h _) tail out rest hend
  · exact takesFirst_simpleStatement h ht tail out rest hend

theorem consumes_statementStep (h : p.Alike n q) : Consumes (statementStep p) := by
  have hsimple := consumes_simpleStatement h.expression h.takesExpression
  intro ts a rest hok
  cases ts with
  | nil => cases hok
  | cons t tail =>
    by_cases hkeyword : t.kind = .keyword
    · rw [statementStep_of_keyword hkeyword rfl] at hok
      refine Nat.lt_succ_of_le (pastFirst_length_le (alike_afterStatementWord? h t) ?_ hok)
      split
      · exact hsimple
      · exact consumes_fail _
    by_cases hname : t.kind = .identifier
    · have hend : statementStep p (t :: tail) = ended (.ok a) rest := hok
      exact Nat.lt_succ_of_le (takesFirst_statementStep h hname tail _ rest hend)
    · rw [statementStep_of_symbol hkeyword hname rfl] at hok
      exact hsimple _ a rest hok

/-- A statement may start with an expression, which then sees the whole list; all else that it is
made of comes after its first token. -/
theorem alike_statementStep {m : Nat} (h : p.Alike m q) (bound : n ≤ m + 1)
    (hexpression : Alike n p.expression q.expression) :
    Alike n (statementStep p) (statementStep q) := by
  have hsimple := alike_simpleStatement hexpression h.takesName
  intro ts
  cases ts with
  | nil =>
    have nothing (p : Inner) (ts : List Token) (hhead : ts.head? = none) :
        statementStep p ts = fail .statement ts := by
      rw [List.head?_eq_none_iff.mp hhead]
      rfl
    exact (alike_fail _ []).of_head (nothing p) (nothing q)
  | cons t tail =>
    by_cases hkeyword : t.kind = .keyword
    · exact (alikeAt_keywordStatement h bound hexpression t tail).of_head
        (fun _ => statementStep_of_keyword hkeyword) (fun _ => statementStep_of_keyword hkeyword)
    by_cases hname : t.kind = .identifier
    · refine alikeAt_second (takesFirst_statementStep h hname) ?_
      simp only [hkeyword, if_false]
      split
      · exact (alikeAt_skip (alike_valueStatement h _ tail)).mono bound
      · exact hsimple (t :: tail)
    · exact (hsimple (t :: tail)).of_head (fun _ => statementStep_of_symbol hkeyword hname)
        (fun _ => statementStep_of_symbol hkeyword hname)

theorem alike_programOf {s s' : Parser Stmt} (consumes : Consumes s) (h : Alike n s s') :
    Alike n (programOf s) (programOf s') := by
  intro ts
  refine (alike_skipSeparators ts).bind fun _ rest _ => ?_
  have statements : Alike n (many (whenNext (fun _ => true) fun _ => separated s))
      (many (whenNext (fun _ => true) fun _ => separated s')) :=
    alike_many (advances_whenNext fun _ _ => consumes_separated consumes) reads_optionally_end
      reads_optionally_end fun ts => alikeAt_whenNext fun _ _ _ _ => alike_separated h ts
  exact (statements rest).bind fun _ _ _ => .pure _

end Statements

section Limits

theorem alike_expression {d e : Nat} (le : d ≤ e) : Alike d (expression d) (expression e) := by
  induction d generalizing e with
  | zero => exact fun ts => Or.inl ⟨Nat.zero_le _, rfl⟩
  | succ d ih =>
    obtain ⟨e, rfl⟩ : ∃ e', e = e' + 1 := ⟨e - 1, by omega⟩
    exact alike_expressionStep (ih (Nat.le_of_succ_le_succ le))

theorem takesFirst_expression (d : Nat) {t : Token} (ht : t.kind = .identifier) :
    TakesFirst (expression d) t := by
  cases d with
  | zero =>
    intro tail out rest hend
    cases out <;> cases hend
  | succ d => exact takesFirst_expressionStep (alike_expression (Nat.le_refl d)) ht

theorem consumes_expression (d : Nat) : Consumes (expression d) := by
  cases d with
  | zero =>
    intro ts a rest hok
    cases hok
  | succ d => exact consumes_expressionStep (alike_expression (Nat.le_refl d))

theorem alike_statement {d e : Nat} (le : d ≤ e) :
    Alike (d - 1) (statement d) (statement e) ∧ Consumes (statement d) := by
  induction d generalizing e with
  | zero =>
    refine ⟨fun ts => Or.inl ⟨Nat.zero_le _, rfl⟩, ?_⟩
    intro ts a rest hok
    cases hok
  | succ d ih =>
    obtain ⟨e, rfl⟩ : ∃ e', e = e' + 1 := ⟨e - 1, by omega⟩
    have le' := Nat.le_of_succ_le_succ le
    have inner : Inner.Alike (d - 1) ⟨expression d, statement d⟩ ⟨expression e, statement e⟩ :=
      { expression := fun ts => (alike_expression le' ts).mono (Nat.sub_le d 1)
        statement := (ih le').1
        takesName := fun _ => takesFirst_expression d
        takesExpression := consumes_expression d
        takesStatement := (ih le').2 }
    have bound : d ≤ d - 1 + 1 := by omega
    exact ⟨alike_statementStep inner bound (alike_expression le'), consumes_statementStep inner⟩

/-- A family of parsers without its limit: one that the list at hand cannot reach. -/
def unlimited (p : Nat → Parser α) : Parser α :=
  fun ts => p (ts.length + 2) ts

theorem alike_unlimited {p : Nat → Parser α} {b : Nat → Nat}
    (h : ∀ {d e}, d ≤ e → Alike (b d) (p d) (p e)) (hb : ∀ d, d ≤ b d + 1) (d : Nat) :
    Alike (b d) (p d) (unlimited p) := by
  intro ts
  rcases h (Nat.le_refl d) ts with hdeep | ⟨pre, rest, out, rfl, hp, _⟩
  · exact Or.inl hdeep
  · refine .of_reads hp ?_
    intro rest' hrest
    have hend := hp rest' hrest
    rcases Nat.le_total d ((pre ++ rest').length + 2) with le | le
    · exact (h le _).eq_of_ended hend
    · have hb := hb ((pre ++ rest').length + 2)
      rw [← hend]
      exact (h le _).eq_of_short (by omega)

/-- Without a limit nothing is too deep. -/
theorem alike_whole {p : Nat → Parser α} {q : Parser α} {b : Nat → Nat}
    (h : ∀ d, Alike (b d) (p d) q) (hb : ∀ d, d ≤ b d + 1) : Alike n q q := by
  intro ts
  rcases h (ts.length + 2) ts with ⟨hn, _⟩ | ⟨pre, rest, out, hts, _, hq⟩
  · have hb := hb (ts.length + 2)
    omega
  · exact Or.inr ⟨pre, rest, out, hts, hq, hq⟩

/-- Expressions of any depth. -/
def wholeExpression : Parser Expr := unlimited expression

/-- Statements of any depth. -/
def wholeStatement : Parser Stmt := unlimited statement

theorem alike_wholeExpression (d : Nat) : Alike d (expression d) wholeExpression :=
  alike_unlimited alike_expression (fun d => Nat.le_succ d) d

theorem alike_wholeStatement (d : Nat) : Alike (d - 1) (statement d) wholeStatement :=
  alike_unlimited (fun le => (alike_statement le).1) (fun d => by omega) d

theorem wholeExpression_eq : wholeExpression = expressionStep wholeExpression := by
  funext ts
  have h := alike_expressionStep (alike_wholeExpression (ts.length + 1)) ts
  exact h.eq_of_short (by omega)

/-- The parsers without a limit. -/
def whole : Inner := ⟨wholeExpression, wholeStatement⟩

theorem wholeStatement_eq : wholeStatement = statementStep whole := by
  funext ts
  have inner :
      Inner.Alike ts.length ⟨expression (ts.length + 1), statement (ts.length + 1)⟩ whole :=
    { expression := fun ts' => (alike_wholeExpression _ ts').mono (Nat.le_succ _)
      statement := alike_wholeStatement (ts.length + 1)
      takesName := fun _ => takesFirst_expression _
      takesExpression := consumes_expression _
      takesStatement := (alike_statement (Nat.le_refl _)).2 }
  have h := alike_statementStep inner (Nat.le_refl _) (alike_wholeExpression _) ts
  exact h.eq_of_short (Nat.lt_succ_self _)

theorem whole_alike (n : Nat) : whole.Alike n whole where
  expression := alike_whole alike_wholeExpression (fun d => Nat.le_succ d)
  statement := alike_whole alike_wholeStatement (fun d => by omega)
  takesName := fun _ ht tail => takesFirst_expression _ ht tail
  takesExpression := fun ts => consumes_expression _ ts
  takesStatement := fun ts => (alike_statement (Nat.le_refl _)).2 ts

/-- Programs whose statements may have any depth. -/
def wholeProgram : Parser Program := programOf wholeStatement

theorem alike_program {d e : Nat} (le : d ≤ e) : Alike (d - 1) (program d) (program e) :=
  alike_programOf (alike_statement le).2 (alike_statement le).1

theorem alike_wholeProgram (d : Nat) : Alike (d - 1) (program d) wholeProgram :=
  alike_programOf (alike_statement (Nat.le_refl d)).2 (alike_wholeStatement d)

theorem reads_wholeProgram (ts : List Token) :
    ∃ pre rest out, ts = pre ++ rest ∧ Reads wholeProgram pre rest.head? out := by
  have inner := whole_alike (ts.length + 1)
  rcases alike_programOf inner.takesStatement inner.statement ts with
    ⟨hn, _⟩ | ⟨pre, rest, out, hts, h, _⟩
  · omega
  · exact ⟨pre, rest, out, hts, h⟩

/-- A limit that is larger than the number of tokens is none. -/
theorem program_eq_whole {d : Nat} {ts : List Token} (short : ts.length + 2 ≤ d) :
    program d ts = wholeProgram ts :=
  (alike_wholeProgram d ts).eq_of_short (by omega)

theorem parseTokens_ok_iff {d : Nat} {ts : List Token} (short : ts.length + 2 ≤ d) {p : Program} :
    parseTokens d ts = .ok p ↔ ∃ rest, wholeProgram ts = .ok (p, rest) := by
  rw [parseTokens, program_eq_whole short]
  constructor
  · intro h
    split at h
    · cases h
      exact ⟨_, ‹_›⟩
    · cases h
  · rintro ⟨rest, h⟩
    rw [h]

end Limits

end ClassScript.Parser
