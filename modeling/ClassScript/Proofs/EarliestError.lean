import ClassScript.Proofs.Completion

/-!
# Errors at the earliest token

What stands before the token that a parse error names can be completed to a program, and with that
token it cannot: the error is reported at the first token at which the tokens have gone wrong.
-/

namespace ClassScript.Parser

variable {n : Nat}

/-- What an expression is completed before. -/
def endsExpression : Follow := fun next => next = some closeParen ∨ next = some aSemicolon

/-- What a statement is completed before. -/
def endsStatement : Follow := fun next =>
  next = none ∨ next = some closeBrace ∨ next = some catchWord

theorem endsExpression_avoids {test : Token → Bool} (hclose : test closeParen = false)
    (hsemicolon : test aSemicolon = false) : Avoids endsExpression test := by
  intro t ht
  rcases ht with ht | ht
  · cases ht
    exact hclose
  · cases ht
    exact hsemicolon

theorem endsStatement_avoids {test : Token → Bool} (hbrace : test closeBrace = false)
    (hcatch : test catchWord = false) : Avoids endsStatement test := by
  intro t ht
  rcases ht with ht | ht | ht
  · cases ht
  · cases ht
    exact hbrace
  · cases ht
    exact hcatch

section Expressions

/-- An expression parser that can be completed on fewer than `n` tokens. -/
structure Completable (n : Nat) (x : Parser Expr) : Prop where
  self : Alike n x x
  completes : Completes n (· = some aName) endsExpression x

variable {x : Parser Expr}

theorem completes_listed (h : Completable n x) :
    Completes n (· = some openParen) anything (parenthesized x) :=
  completes_parenthesized h.self (h.completes.mono (fun _ => id) fun _ => Or.inl)

theorem completes_afterPoint (h : Completable n x) (target : Expr) (line : Nat) :
    Completes n anything endsExpression (afterPoint x target line) := by
  refine (completes_name _).freely.bind (alike_name _) fun member => ?_
  refine Completes.freely (H := endsExpression) ?_
  refine .whenNext (endsExpression_avoids rfl rfl) (fun _ => ?_) .pure
  exact (completes_listed h).before.finishes.bind_pure

theorem finishes_postfixStep (h : Completable n x) (target : Expr) :
    Finishes (n + 1) endsExpression (postfixStep x target) :=
  finishes_whenNext fun dot => .skip (completes_afterPoint h target dot.line)

theorem completes_newObject (line : Nat) :
    Completes n anything endsExpression (newObject line) := by
  refine (completes_name _).freely.bind (alike_name _) fun c => ?_
  refine Completes.freely (H := endsExpression) ?_
  refine .after (endsExpression_avoids rfl rfl) ?_ .pure
  exact .bind_pure (completes_expect closeParen (by decide)).freely.before

theorem completes_superCall (h : Completable n x) (line : Nat) :
    Completes n anything endsExpression (superCall x line) := by
  refine (completes_expect point (by decide)).freely.bind (alike_expect _) fun _ => ?_
  refine (completes_name _).freely.bind (alike_name _) fun m => ?_
  exact .bind_pure (completes_listed h).freely.before

theorem completes_closing (h : Completable n x) :
    Completes n (· = some aName) anything (closing x) := by
  refine h.completes.bind h.self fun e => ?_
  exact .bind_pure ((completes_expect closeParen (by decide)).starting (Or.inl rfl))

theorem completes_afterName (h : Completable n x) (t : Token) :
    Completes n anything endsExpression (afterName x t) := by
  refine Completes.freely (H := endsExpression) ?_
  refine .whenNext (endsExpression_avoids rfl rfl) (fun _ => ?_) .pure
  exact (completes_listed h).before.finishes.bind_pure

theorem completes_afterKeyword? (h : Completable n x) {t : Token} {r : Parser Expr}
    (hr : afterKeyword? x t = some r) : Completes n anything endsExpression r := by
  rw [afterKeyword?] at hr
  split at hr <;> cases hr
  · exact Completes.pure.freely
  · exact Completes.pure.freely
  · exact Completes.pure.freely
  · exact Completes.pure.freely
  · exact completes_newObject _
  · exact completes_superCall h _

theorem completes_afterFirst? (h : Completable n x) {t : Token} {r : Parser Expr}
    (hr : afterFirst? x t = some r) : Completes n anything endsExpression r := by
  rw [afterFirst?] at hr
  split at hr
  · cases hr
    exact Completes.pure.freely
  · cases hr
    exact Completes.pure.freely
  · cases hr
    exact completes_afterName h t
  · cases hr
    exact (completes_closing h).freely.before
  · exact completes_afterKeyword? h hr
  · cases hr

theorem finishes_primary (h : Completable n x) : Finishes (n + 1) endsExpression (primary x) := by
  intro ts left short
  rcases ts with _ | ⟨t, ts⟩
  · exact absurd rfl left
  have hprimary (ts' : List Token) (hhead : ts'.head? = some t) :
      primary x ts' = pastFirst (afterFirst? x t) (fail .expression) ts' := by
    rw [primary, bind_apply]
    simp only [peek, hhead]
  refine .of_head hprimary ?_
  cases hr : afterFirst? x t with
  | some r => exact Finishes.skip (completes_afterFirst? h hr) _ left short
  | none => exact .of_left (.error _) left rfl

theorem completes_operand (h : Completable n x) :
    Completes (n + 1) (· = some aName) endsExpression (operand x) := by
  have hpostfix : ∀ first, Completes (n + 1) endsExpression endsExpression
      (repeated (postfixStep x) first) :=
    .repeated (alike_postfixStep h.self) (advances_postfixStep h.self)
      (fun _ => (endsExpression_avoids rfl rfl).declines) (finishes_postfixStep h)
  refine Completes.bind (alike_primary h.self) ⟨?_, finishes_primary h⟩ hpostfix
  refine ⟨[aName], .var "a" 1, by decide, fun next hnext => ⟨rfl, ?_⟩⟩
  refine reads_primary (t := aName) rfl ?_
  exact ((endsExpression_avoids rfl rfl).declines next hnext).bind_nil (.pure _)

theorem open_unary {p : Parser Expr} {t : Token} {op : UnaryOp} {ts : List Token}
    (ht : unaryOp? t = some op) (h : Open (unary p) (t :: ts)) : Open (unary p) ts := by
  obtain ⟨out, hend⟩ := h
  rw [unary, ht] at hend
  dsimp only at hend
  cases hrun : unary p ts with
  | error e =>
    rw [hrun] at hend
    cases out with
    | ok e => cases hend
    | error expected =>
      cases hend
      exact ⟨.error expected, hrun⟩
  | ok r =>
    rw [hrun] at hend
    have hrest := (ended_inj (show ended (.ok (Expr.unary op r.1 t.line)) r.2 = _ from hend)).2
    exact ⟨.ok r.1, by rw [hrun, ended_ok, ← hrest]⟩

theorem completes_unary {p : Parser Expr} (h : Completes n (· = some aName) endsExpression p) :
    Completes n (· = some aName) endsExpression (unary p) := by
  have fresh : Fresh (· = some aName) endsExpression (unary p) := by
    obtain ⟨c, e, hc, hread⟩ := h.fresh
    refine ⟨c, e, hc, fun next hnext => ?_⟩
    obtain ⟨hhead, hp⟩ := hread next hnext
    refine ⟨hhead, reads_unary (fun t ht => ?_) hp⟩
    rw [hhead] at ht
    cases ht
    rfl
  refine ⟨fresh, fun ts => ?_⟩
  induction ts with
  | nil => exact fun left => absurd rfl left
  | cons t ts ih =>
    intro left short
    cases hop : unaryOp? t with
    | none =>
      refine .of_head (fun ts' hhead => ?_) (h.finishes (t :: ts) left short)
      obtain ⟨tail, rfl⟩ := List.head?_eq_some_iff.mp hhead
      rw [unary, hop]
    | some op =>
      intro hopen
      by_cases last : ts = []
      · obtain ⟨c, e, hc, hread⟩ := fresh
        refine ⟨c, .unary op e t.line, hc, fun next hnext => ?_⟩
        rw [last]
        exact reads_unary_op hop (hread next hnext).2
      · rw [List.length_cons] at short
        obtain ⟨c, e, hc, hread⟩ := ih last (by omega) (open_unary hop hopen)
        exact ⟨c, .unary op e t.line, hc, fun next hnext => reads_unary_op hop (hread next hnext)⟩

theorem completes_binary {p : Parser Expr} (self : Alike n p p)
    (h : Completes n (· = some aName) endsExpression p) (levels : Nat) :
    Completes n (· = some aName) endsExpression (binary p levels) := by
  induction levels with
  | zero => exact h
  | succ level ih =>
    have self := alike_binary self level
    have declines (left : Expr) (next : Option Token) (hnext : endsExpression next) :
        Reads (chainStep level (binary p level) left) [] next (.ok none) := by
      refine reads_optionally_none ?_
      rcases hnext with rfl | rfl
      · rfl
      · rfl
    have finishes (left : Expr) :
        Finishes n endsExpression (chainStep level (binary p level) left) :=
      finishes_optionally fun t op _ => (Finishes.skip ih.bind_pure).le (Nat.le_succ n)
    exact ih.bind self <| .repeated (alike_chainStep level self) (advances_chainStep level self)
      declines finishes

theorem completable_expressionStep (h : Completable n x) :
    Completable (n + 1) (expressionStep x) :=
  ⟨alike_expressionStep h.self, completes_binary (alike_unary (alike_operand h.self))
    (completes_unary (completes_operand h)) _⟩

/-- A primary expression is a whole expression before a parenthesis and a semicolon. -/
theorem reads_expressionStep {pre : List Token} {next : Option Token} {e : Expr}
    (h : Reads (primary x) pre next (.ok e)) (hnext : endsExpression next)
    (hunary : ∀ t, pre.head?.or next = some t → unaryOp? t = none) :
    Reads (expressionStep x) pre next (.ok e) := by
  have hoperand : Reads (operand x) pre next (.ok e) :=
    h.bind_last (reads_repeated_none ((endsExpression_avoids rfl rfl).declines next hnext))
  refine reads_binary_of_operand (reads_unary hunary hoperand) ?_ _
  rcases hnext with rfl | rfl
  · rfl
  · rfl

theorem completable_wholeExpression (n : Nat) : Completable n wholeExpression := by
  induction n with
  | zero =>
    have finishes : Finishes 0 endsExpression wholeExpression :=
      fun ts _ short => absurd short (Nat.not_lt_zero _)
    refine ⟨alike_whole alike_wholeExpression (fun d => Nat.le_succ d), ⟨?_, finishes⟩⟩
    refine ⟨[aName], .var "a" 1, by decide, fun next hnext => ⟨rfl, ?_⟩⟩
    rw [wholeExpression_eq]
    refine reads_expressionStep (reads_primary rfl ?_) hnext ?_
    · exact ((endsExpression_avoids rfl rfl).declines next hnext).bind_nil (.pure _)
    · rintro t ⟨⟩
      rfl
  | succ n ih =>
    rw [wholeExpression_eq]
    exact completable_expressionStep ih

end Expressions

section Simple

variable {x : Parser Expr}

theorem completes_afterExpression (h : Completable n x) (e : Expr) (line : Nat) :
    Completes n endsExpression endsExpression (afterExpression x e line) := by
  rw [afterExpression]
  cases memberTarget? e with
  | none => exact .pure
  | some access =>
    refine .whenNext (endsExpression_avoids rfl rfl) (fun _ => ?_) .pure
    rw [bind_assoc]
    exact (Finishes.skip h.completes.bind_pure).le (Nat.le_succ n)

theorem completes_simpleFromExpression (h : Completable n x) :
    Completes n (· = some aName) endsExpression (simpleFromExpression x) :=
  .currentLine fun line => h.completes.bind h.self fun e => completes_afterExpression h e line

/-- Nothing that completes an expression is an assignment sign. -/
theorem not_assign {c : List Token} (hc : c ⊆ fillers) {next : Option Token}
    (hnext : endsExpression next) (u : Token) (hu : c.head?.or next = some u) :
    u.kind ≠ .assign := by
  have hfillers : ∀ t ∈ fillers, t.kind ≠ .assign := by decide
  cases c with
  | nil =>
    rcases hnext with rfl | rfl
    · cases hu
      decide
    · cases hu
      decide
  | cons t c =>
    cases hu
    exact hfillers u (hc List.mem_cons_self)

theorem completes_simple (h : Completable n x) :
    Completes n (· = some aName) endsExpression (simple x) := by
  have hexpression := completes_simpleFromExpression h
  refine ⟨?_, fun ts left short => ?_⟩
  · obtain ⟨c, s, hc, hread⟩ := hexpression.fresh
    refine ⟨c, s, hc, fun next hnext => ?_⟩
    obtain ⟨hhead, hs⟩ := hread next hnext
    refine ⟨hhead, ?_⟩
    cases c with
    | nil => rcases hnext with rfl | rfl <;> cases hhead
    | cons t c =>
      exact reads_simple_of_expression hs (not_assign (List.cons_subset.mp hc).2 hnext)
  · rcases ts with _ | ⟨t, ts⟩
    · exact absurd rfl left
    have hend := hexpression.finishes (t :: ts) left short
    by_cases hname : t.kind = .identifier
    · rcases ts with _ | ⟨u, ts⟩
      · intro hopen
        obtain ⟨c, s, hc, hread⟩ := hend hopen
        exact ⟨c, s, hc, fun next hnext =>
          reads_simple_of_expression (hread next hnext) (not_assign hc hnext)⟩
      · by_cases hassign : u.kind = .assign
        · refine .of_two (fun tail => simple_of_assignment hname hassign tail) (.skip ?_)
          refine Finishes.skip h.completes.bind_pure _ (List.cons_ne_nil u ts) ?_
          simp only [List.length_cons] at short ⊢
          omega
        · refine .of_two (fun tail => simple_of_not_assignment (fun both => ?_) tail) hend
          exact hassign both.2
    · refine .of_head (fun ts' hhead => simple_of_not_name fun u hu => ?_) hend
      rw [hhead] at hu
      cases hu
      exact hname

end Simple

section Statements

/-- Inner parsers that can be completed on fewer than `n` tokens. -/
structure Inner.Completable (n : Nat) (p : Inner) : Prop where
  alike : p.Alike n p
  expression : Completes n (· = some aName) endsExpression p.expression
  statement : Completes n (· = some aName) endsStatement p.statement

variable {p : Inner}

theorem Inner.Completable.value (h : p.Completable n) : Parser.Completable n p.expression :=
  ⟨h.alike.expression, h.expression⟩

theorem beforeBrace_endsStatement (next : Option Token) (h : beforeBrace next) :
    endsStatement next :=
  Or.inr (Or.inl h)

theorem completes_separated {s : Parser Stmt} (self : Alike n s s)
    (h : Completes n (· = some aName) endsStatement s) :
    Completes n (· = some aName) endsStatement (separated s) := by
  refine h.bind self fun _ => ?_
  exact .bind_pure (completes_skipSeparators (endsStatement_avoids rfl rfl))

theorem completes_bodyStatements (h : p.Completable n) :
    Completes n anything anything (bodyStatements p) := by
  have hbrace : Avoids beforeBrace (Token.isText · ";") := by
    rintro t ⟨⟩
    rfl
  have self := alike_separated h.alike.statement
  have consumes := consumes_separated h.alike.takesStatement
  have statements : Completes n beforeBrace beforeBrace
      (many (unlessClosed (separated p.statement))) := by
    refine completes_unlessClosed self consumes ?_
    exact ((completes_separated h.alike.statement h.statement).mono (fun _ => id)
      beforeBrace_endsStatement).finishes
  refine (completes_skipSeparators hbrace).freely.bind alike_skipSeparators fun _ => ?_
  refine statements.bind (alike_unlessClosed consumes self) fun _ => ?_
  exact .bind_pure (completes_expect closeBrace (by decide))

theorem completes_block (h : p.Completable n) :
    Completes n (· = some openBrace) endsStatement (block p) := by
  refine .currentLine fun line => ⟨?_, ?_⟩
  · refine .after (t := openBrace) (by decide) rfl rfl ?_
    exact (completes_bodyStatements h).before.bind_pure.fresh
  · exact .after (completes_bodyStatements h).before.bind_pure h.statement.finishes.bind_pure

theorem completes_condition (h : p.Completable n) :
    Completes n anything anything (condition p) := by
  refine (completes_expect openParen (by decide)).freely.bind (alike_expect _) fun _ => ?_
  exact (completes_closing h.value).freely

theorem completes_conditional (h : p.Completable n) (line : Nat) :
    Completes n anything endsStatement (conditional p line) := by
  refine (completes_condition h).bind (alike_condition h.alike) fun c => ?_
  refine (completes_block h).freely.bind (alike_block h.alike) fun _ => ?_
  refine .after (endsStatement_avoids rfl rfl) ?_ .pure
  exact (completes_block h).freely.bind_pure

theorem completes_whileLoop (h : p.Completable n) (line : Nat) :
    Completes n anything endsStatement (whileLoop p line) := by
  refine (completes_condition h).bind (alike_condition h.alike) fun c => ?_
  exact (completes_block h).freely.bind_pure

theorem completes_forLoop (h : p.Completable n) (line : Nat) :
    Completes n anything endsStatement (forLoop p line) := by
  have self : Alike n (simple p.expression) (simple p.expression) :=
    alike_simple h.alike.expression h.alike.takesName
  have hsemicolon : Completes n endsExpression anything (expect ";") :=
    (completes_expect aSemicolon (by decide)).starting (Or.inr rfl)
  have hclose : Completes n endsExpression anything (expect ")") :=
    (completes_expect closeParen (by decide)).starting (Or.inl rfl)
  refine (completes_expect openParen (by decide)).freely.bind (alike_expect _) fun _ => ?_
  refine (completes_simple h.value).freely.bind self fun _ => ?_
  refine hsemicolon.bind (alike_expect _) fun _ => ?_
  refine h.expression.freely.bind h.alike.expression fun _ => ?_
  refine hsemicolon.bind (alike_expect _) fun _ => ?_
  refine (completes_simple h.value).freely.bind self fun _ => ?_
  refine hclose.bind (alike_expect _) fun _ => ?_
  exact (completes_block h).freely.bind_pure

theorem completes_params : Completes n anything anything params :=
  (completes_parenthesized (alike_name _) (completes_name _).before).freely

theorem completes_function (h : p.Completable n) (line : Nat) :
    Completes n anything endsStatement (function p line) := by
  refine (completes_name _).freely.bind (alike_name _) fun f => ?_
  refine completes_params.bind alike_params fun ps => ?_
  exact (completes_block h).freely.bind_pure

theorem completes_endSimple_after :
    Completes n endsExpression anything endSimple :=
  completes_endSimple.starting (Or.inr rfl)

theorem completes_returnValue (h : p.Completable n) (line : Nat) :
    Completes n anything endsStatement (returnValue p line) := by
  refine Completes.freely (H := (· = some aSemicolon)) ?_
  refine .whenNext ?_ (fun _ => ?_) completes_endSimple.before.bind_pure
  · rintro t ⟨⟩
    rfl
  · refine (h.expression.bind h.alike.expression fun _ => ?_).finishes
    exact completes_endSimple_after.before.bind_pure

theorem completes_valueStatement (h : p.Completable n) (make : Expr → Stmt) :
    Completes n anything endsStatement (valueStatement p make) := by
  refine h.expression.freely.bind h.alike.expression fun _ => ?_
  exact completes_endSimple_after.before.bind_pure

theorem completes_importModule (line : Nat) :
    Completes n anything endsStatement (importModule line) := by
  refine (completes_name _).freely.bind (alike_name _) fun m => ?_
  exact .bind_pure (completes_expect aSemicolon (by decide)).freely.before

theorem completes_catchClause (h : p.Completable n) :
    Completes n anything endsStatement (catchClause p) := by
  refine (completes_expect openParen (by decide)).freely.bind (alike_expect _) fun _ => ?_
  refine (completes_name _).freely.bind (alike_name _) fun x => ?_
  refine (completes_expect closeParen (by decide)).freely.bind (alike_expect _) fun _ => ?_
  exact (completes_block h).freely.bind_pure

theorem completes_handlers (h : p.Completable n) :
    Completes n (· = some catchWord) endsStatement (handlers p) := by
  have hblock : Completes n anything endsStatement (block p) := (completes_block h).freely
  have hcatch : Completes n anything endsStatement (catchClause p >>= afterCatch p) := by
    refine (completes_catchClause h).bind (alike_catchClause h.alike) fun c => ?_
    exact .after (endsStatement_avoids rfl rfl) hblock.bind_pure .pure
  refine ⟨.after (t := catchWord) (by decide) rfl rfl hcatch.fresh, .after hcatch ?_⟩
  exact .after hblock.bind_pure fun ts left _ => .of_left (.error _) left rfl

theorem completes_tryBlock (h : p.Completable n) (line : Nat) :
    Completes n anything endsStatement (tryBlock p line) := by
  refine (completes_block h).freely.bind (alike_block h.alike) fun body => ?_
  exact ((completes_handlers h).starting (Or.inr (Or.inr rfl))).bind_pure

/-- The tokens that come before the name of a member, of which each may be left out. -/
theorem completes_access?_bind {α : Type} {k : Option Access → Parser α} {t : Token} {F : Follow}
    (ht : Access.ofWord? t.text = none) (h : ∀ access, Completes n (· = some t) F (k access)) :
    Completes n (· = some t) F (access? >>= k) := by
  refine .optionally ?_ (fun u access _ => ?_) (h none)
  · rintro next rfl
    exact ht
  · rw [bind_assoc]
    exact (Finishes.skip (h (some access))).le (Nat.le_succ n)

theorem completes_modifiers : Completes n (· = some aName) (· = some aName) modifiers := by
  have hnot (text : String) (htext : aName.isText text = false) (next : Option Token)
      (hnext : next = some aName) : Reads (accept text) [] next (.ok false) := by
    refine reads_accept_not fun t ht => ?_
    cases hnext.symm.trans ht
    exact htext
  have hvirtual : Completes n (· = some aName) (· = some aName) (accept "virtual") :=
    ⟨⟨[], false, List.nil_subset _, fun next hnext => ⟨hnext, hnot _ rfl next hnext⟩⟩,
      finishes_accept _⟩
  have hoverride : Completes n (· = some aName) (· = some aName) (accept "override") :=
    ⟨⟨[], false, List.nil_subset _, fun next hnext => ⟨hnext, hnot _ rfl next hnext⟩⟩,
      finishes_accept _⟩
  refine hvirtual.bind (alike_accept _) fun isVirtual => ?_
  cases isVirtual with
  | true => exact .pure
  | false => exact hoverride.bind_pure

theorem completes_method (h : p.Completable n) (access : Access) (flags : Bool × Bool)
    (line : Nat) : Completes n anything endsStatement (method p access flags line) := by
  refine (completes_name _).freely.bind (alike_name _) fun m => ?_
  refine completes_params.bind alike_params fun ps => ?_
  exact (completes_block h).freely.bind_pure

theorem completes_field (h : p.Completable n) (access : Access) (line : Nat) :
    Completes n (· = some aName) anything (field p access line) := by
  refine (completes_name _).bind (alike_name _) fun x => ?_
  refine Completes.freely (H := (· = some aSemicolon)) ?_
  refine .whenNext ?_ (fun _ => ?_) (.bind_pure (completes_expect aSemicolon (by decide)))
  · rintro t ⟨⟩
    rfl
  · rw [bind_assoc]
    refine (Finishes.skip (h.expression.bind h.alike.expression fun _ => ?_)).le (Nat.le_succ n)
    exact .bind_pure ((completes_expect aSemicolon (by decide)).starting (Or.inr rfl))

theorem completes_member (h : p.Completable n) :
    Completes n (· = some aName) beforeBrace (member p) := by
  refine .currentLine fun line => completes_access?_bind rfl fun word => ?_
  refine completes_modifiers.bind alike_modifiers fun flags => ?_
  refine .after ?_ ?_ (completes_field h _ _).before
  · rintro t ⟨⟩
    rfl
  · have hmethod := completes_method h (word.getD .privateAccess) flags line
    exact (hmethod.mono (fun _ => id) beforeBrace_endsStatement).bind_pure

theorem completes_classDecl (h : p.Completable n) (line : Nat) :
    Completes n anything endsStatement (classDecl p line) := by
  have hbody (c : String) (base : Option String) (interfaces : Option (List String)) :
      Completes n (· = some openBrace) endsStatement (do
        let members ← inBraces (member p)
        return Stmt.classDecl c base (interfaces.getD []) members line) :=
    .bind_pure (completes_inBraces (alike_member h.alike) (consumes_member h.alike)
      (completes_member h).finishes).before
  have avoids (text : String) (htext : openBrace.isText text = false) :
      Avoids (· = some openBrace) (Token.isText · text) := by
    rintro t ⟨⟩
    exact htext
  have selfNames : Alike n (commaSeparated (name .interface)) (commaSeparated (name .interface)) :=
    alike_commaSeparated (alike_name _)
  have hnames : Completes n anything (· = some openBrace) (commaSeparated (name .interface)) :=
    completes_commaSeparated (alike_name _) (avoids _ rfl) (completes_name _).freely.before
  have hinterfaces (c : String) (base : Option String) :
      Completes n (· = some openBrace) endsStatement (do
        let interfaces ← after "implements" (commaSeparated (name .interface))
        let members ← inBraces (member p)
        return Stmt.classDecl c base (interfaces.getD []) members line) :=
    .after (avoids _ rfl) (hnames.bind selfNames fun names => hbody c base (some names))
      (hbody c base none)
  refine (completes_name _).freely.bind (alike_name _) fun c => ?_
  refine Completes.freely (H := (· = some openBrace)) ?_
  refine .after (avoids _ rfl) ?_ (hinterfaces c none)
  exact (completes_name _).freely.bind (alike_name _) fun base => (hinterfaces c (some base)).freely

theorem completes_signature : Completes n (· = some functionWord) anything signature := by
  refine .currentLine fun line => completes_access?_bind rfl fun _ => ?_
  refine (completes_expect functionWord (by decide)).bind (alike_expect _) fun _ => ?_
  refine (completes_name _).freely.bind (alike_name _) fun m => ?_
  refine completes_params.bind alike_params fun ps => ?_
  exact completes_endSimple.freely.bind_pure

theorem completes_interfaceDecl (line : Nat) :
    Completes n anything endsStatement (interfaceDecl line) := by
  refine (completes_name _).freely.bind (alike_name _) fun i => ?_
  exact .bind_pure (completes_inBraces alike_signature consumes_signature
    completes_signature.before.finishes).freely.before

theorem completes_lone (s : Stmt) : Completes n anything endsStatement (lone s) :=
  completes_endSimple.freely.before.bind_pure

theorem completes_simpleStatement (h : Completable n p.expression)
    (takes : ∀ t : Token, t.kind = .identifier → TakesFirst p.expression t) :
    Completes n (· = some aName) anything (simpleStatement p) := by
  refine (completes_simple h).bind (alike_simple h.self takes) fun _ => ?_
  exact completes_endSimple_after.bind_pure

theorem completes_afterStatementWord? (h : p.Completable n) {t : Token} {r : Parser Stmt}
    (hr : afterStatementWord? p t = some r) : Completes n anything endsStatement r := by
  rw [afterStatementWord?] at hr
  split at hr <;> cases hr
  · exact completes_classDecl h _
  · exact completes_interfaceDecl _
  · exact completes_function h _
  · exact completes_conditional h _
  · exact completes_whileLoop h _
  · exact completes_forLoop h _
  · exact completes_returnValue h _
  · exact completes_tryBlock h _
  · exact completes_valueStatement h _
  · exact completes_importModule _
  · exact completes_lone _
  · exact completes_lone _

/-- A name at the end may be completed to a call, also where it is `print`. -/
theorem reads_call_statement {t : Token} (ht : t.kind = .identifier) {next : Option Token}
    (h : Reads p.expression [t, openParen, closeParen] (some aSemicolon)
      (.ok (.call t.text [] t.line))) :
    Reads (statementStep p) [t, openParen, closeParen, aSemicolon] next
      (.ok (.simple (.expr (.call t.text [] t.line) t.line))) := by
  have hexpression : Reads (simpleFromExpression p.expression) [t, openParen, closeParen]
      (some aSemicolon) (.ok (.expr (.call t.text [] t.line) t.line)) :=
    reads_currentLine.bind_nil (h.bind_last (.pure _))
  have hsimple := reads_simple_of_expression hexpression (by rintro u ⟨⟩; decide)
  have hend : Reads endSimple [aSemicolon] next (.ok ()) := (reads_accept rfl).bind_pure
  have hstatement : Reads (simpleStatement p) ([t, openParen, closeParen] ++ [aSemicolon]) next
      (.ok (.simple (.expr (.call t.text [] t.line) t.line))) :=
    Reads.bind hsimple (hend.bind_last (.pure _))
  refine reads_second ?_
  have hkeyword : t.kind ≠ .keyword := by rw [ht]; decide
  have hprint : startsPrint t (some openParen) = false := by
    simp [startsPrint, continuesName, openParen]
  simp only [List.head?_cons, Option.some_or, hkeyword, hprint, if_false, Bool.false_eq_true]
  exact hstatement

theorem fresh_statementStep (h : Completable n p.expression)
    (takes : ∀ t : Token, t.kind = .identifier → TakesFirst p.expression t) :
    Fresh (· = some aName) endsStatement (statementStep p) := by
  obtain ⟨c, s, hc, hread⟩ := (completes_simpleStatement h takes).before.fresh
  refine ⟨c, s, hc, fun next hnext => ?_⟩
  obtain ⟨hhead, hs⟩ := hread next hnext
  refine ⟨hhead, hs.of_head fun ts hts => ?_⟩
  exact statementStep_of_not_print (t := aName) rfl (by decide) (hts.trans hhead)

theorem completes_statementStep (h : p.Completable n) (hvalue : Completable (n + 1) p.expression)
    (hcall : ∀ t : Token, t.kind = .identifier → Reads p.expression [t, openParen, closeParen]
      (some aSemicolon) (.ok (.call t.text [] t.line))) :
    Completes (n + 1) (· = some aName) endsStatement (statementStep p) := by
  have hsimple : Completes (n + 1) (· = some aName) endsStatement (simpleStatement p) :=
    (completes_simpleStatement hvalue h.alike.takesName).before
  refine ⟨fresh_statementStep hvalue h.alike.takesName, fun ts left short => ?_⟩
  · rcases ts with _ | ⟨t, ts⟩
    · exact absurd rfl left
    have hend := hsimple.finishes (t :: ts) left short
    by_cases hkeyword : t.kind = .keyword
    · refine .of_head (fun ts' hhead => statementStep_of_keyword hkeyword hhead) ?_
      rw [keywordStatement]
      cases hr : afterStatementWord? p t with
      | some r => exact Finishes.skip (completes_afterStatementWord? h hr) _ left short
      | none =>
        dsimp only [pastFirst]
        split
        · exact hend
        · exact .of_left (.error _) left rfl
    by_cases hname : t.kind = .identifier
    · by_cases hprint : t.text = "print"
      · rcases ts with _ | ⟨u, ts⟩
        · exact fun _ => ⟨[openParen, closeParen, aSemicolon], _, by decide,
            fun next _ => reads_call_statement hname (hcall t hname)⟩
        · have hchoice (tail : List Token) : statementStep p (t :: u :: tail) =
              (if startsPrint t (some u) then do skip; valueStatement p (.print · t.line)
                else simpleStatement p) (t :: u :: tail) :=
            statementStep_of_name hname (u :: tail)
          refine .of_two hchoice ?_
          split
          · exact Finishes.skip (completes_valueStatement h _) _ left short
          · exact hend
      · exact .of_head (fun ts' hhead => statementStep_of_not_print hname hprint hhead) hend
    · exact .of_head (fun ts' hhead => statementStep_of_symbol hkeyword hname hhead) hend

theorem completes_programOf {s : Parser Stmt} (self : Alike n s s) (consumes : Consumes s)
    (h : Completes n (· = some aName) endsStatement s) :
    Completes n (· = none) (· = none) (programOf s) := by
  have avoids (test : Token → Bool) : Avoids (· = none) test := by
    rintro t ⟨⟩
  have selfStatement := alike_separated self
  have hstatement : Finishes n (· = none) (separated s) :=
    ((completes_separated self h).mono (fun _ => id) fun _ => Or.inl).finishes
  have hmany : Completes n (· = none) (· = none)
      (many (whenNext (fun _ => true) fun _ => separated s)) :=
    .many (fun _ => alikeAt_whenNext fun _ _ _ _ => selfStatement _)
      (advances_whenNext fun _ _ => consumes_separated consumes) (avoids _).declines
      (finishes_whenNext fun _ => hstatement)
  refine (completes_skipSeparators (avoids _)).bind alike_skipSeparators fun _ => ?_
  exact hmany.bind_pure

end Statements

theorem reads_call {t : Token} (ht : t.kind = .identifier) :
    Reads wholeExpression [t, openParen, closeParen] (some aSemicolon)
      (.ok (.call t.text [] t.line)) := by
  rw [wholeExpression_eq]
  refine reads_expressionStep (reads_primary (by rw [afterFirst?, ht]) ?_) (Or.inr rfl) ?_
  · have hargs : Reads (parenthesized wholeExpression) [openParen, closeParen] (some aSemicolon)
        (.ok []) := reads_parenthesized_nil rfl rfl
    exact (reads_whenNext (t := openParen) rfl rfl hargs).bind_last (.pure _)
  · rintro u ⟨⟩
    simp [unaryOp?, ht]

theorem completable_whole (n : Nat) : whole.Completable n := by
  induction n with
  | zero =>
    have value := completable_wholeExpression 0
    refine ⟨whole_alike 0, value.completes, ?_, fun ts _ short => absurd short (Nat.not_lt_zero _)⟩
    have fresh := fresh_statementStep (p := whole) value (whole_alike 0).takesName
    rwa [← wholeStatement_eq] at fresh
  | succ n ih =>
    have value := completable_wholeExpression (n + 1)
    refine ⟨whole_alike (n + 1), value.completes, ?_⟩
    have statement := completes_statementStep ih value fun _ => reads_call
    rwa [← wholeStatement_eq] at statement

/-- Tokens that end before the program is complete can be completed. -/
theorem completes_program {ts : List Token} (h : Open wholeProgram ts) :
    ∃ c program, c ⊆ fillers ∧ wholeProgram (ts ++ c) = .ok (program, []) := by
  have inner := completable_whole (ts.length + 1)
  have hprogram := completes_programOf inner.alike.statement inner.alike.takesStatement
    inner.statement
  have hcompletes : CompletesAt (· = none) wholeProgram ts := by
    by_cases left : ts = []
    · rw [left]
      exact hprogram.fresh.completesAt
    · exact hprogram.finishes ts left (Nat.lt_succ_self _)
  obtain ⟨c, program, hc, hread⟩ := hcompletes h
  refine ⟨c, program, hc, ?_⟩
  have hrun := hread none rfl [] rfl
  rwa [List.append_nil] at hrun

end ClassScript.Parser

namespace ClassScript

open ClassScript.Parser

theorem parseTokens_error {depth : Nat} {ts : List Token} {e : ParseError} :
    parseTokens depth ts = .error (.unexpected e) ↔
      program depth ts = ended (.error e.expected) e.rest := by
  rw [parseTokens]
  constructor
  · intro h
    split at h
    · cases h
    · cases h
      assumption
  · intro h
    rw [h]
    rfl

/-- A parse error is reported at the earliest token: before it the tokens can be completed to a
program, and with it they are rejected there in the same way whatever follows. For the completion
the limit on nesting is set aside: the depth allowed exceeds the number of its tokens by two, and no
list of tokens nests deeper than that. -/
theorem parse_error_earliest {depth : Nat} {ts : List Token} {e : ParseError}
    (h : parseTokens depth ts = .error (.unexpected e)) :
    ∃ pre, ts = pre ++ e.rest ∧
      (∀ t, e.found = some t → ∀ more depth', depth ≤ depth' →
        parseTokens depth' (pre ++ t :: more) = .error (.unexpected ⟨e.expected, t :: more⟩)) ∧
      ∃ more p, (∀ t ∈ more, tokenize t.text = .ok [t]) ∧
        ∀ depth', (pre ++ more).length + 2 ≤ depth' →
          parseTokens depth' (pre ++ more) = .ok p := by
  have hend := parseTokens_error.mp h
  obtain ⟨pre, hts, hread⟩ := (alike_wholeProgram depth ts).reads_of_ended hend
  refine ⟨pre, hts, ?_, ?_⟩
  · intro t ht more depth' le
    rw [parseTokens_error]
    exact (alike_program le _).eq_of_ended (hread _ ht.symm)
  -- what stands before the error is not rejected earlier, or the whole would be rejected there too
  have hopen : Open wholeProgram pre := by
    have hwhole := (alike_wholeProgram depth ts).eq_of_ended hend
    obtain ⟨pre', rest, out, rfl, hread'⟩ := reads_wholeProgram pre
    refine ⟨out, ?_⟩
    by_cases left : rest = []
    · rw [hread' rest rfl, left]
    · have hhead : (rest ++ e.rest).head? = rest.head? := by
        rw [← head?_of_left left, Option.or_none]
      rw [hts, List.append_assoc, hread' (rest ++ e.rest) hhead] at hwhole
      have hrest := (ended_inj hwhole).2
      exact absurd (List.append_left_eq_self.mp hrest) left
  obtain ⟨c, p, hc, hrun⟩ := completes_program hopen
  refine ⟨c, p, fun t ht => fillers_scanned t (hc ht), fun depth' short => ?_⟩
  exact (parseTokens_ok_iff short).mpr ⟨_, hrun⟩

/-- In `print ;` the semicolon is rejected, and a `print` alone is not. -/
theorem parse_error_earliest_print :
    parseTokens 4 [⟨.identifier, "print", 1, 1⟩, ⟨.separator, ";", 1, 7⟩] =
        .error (.unexpected ⟨.expression, [⟨.separator, ";", 1, 7⟩]⟩) ∧
    ∃ pre, [⟨.identifier, "print", 1, 1⟩, ⟨.separator, ";", 1, 7⟩] =
        pre ++ [⟨.separator, ";", 1, 7⟩] ∧
      (∀ t, some ⟨.separator, ";", 1, 7⟩ = some t → ∀ more depth', 4 ≤ depth' →
        parseTokens depth' (pre ++ t :: more) = .error (.unexpected ⟨.expression, t :: more⟩)) ∧
      ∃ more p, (∀ t ∈ more, tokenize t.text = .ok [t]) ∧
        ∀ depth', (pre ++ more).length + 2 ≤ depth' →
          parseTokens depth' (pre ++ more) = .ok p := by
  have h : parseTokens 4 [⟨.identifier, "print", 1, 1⟩, ⟨.separator, ";", 1, 7⟩] =
      .error (.unexpected ⟨.expression, [⟨.separator, ";", 1, 7⟩]⟩) := rfl
  exact ⟨h, parse_error_earliest h⟩

end ClassScript
