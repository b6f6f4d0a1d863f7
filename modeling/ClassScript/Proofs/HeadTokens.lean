import ClassScript.Proofs.ParserSoundness
import ClassScript.Proofs.SpanningParsers

/-!
# The parsers of the grammar take spans

What the parser takes for a node is a span of the node, so the line of the node is that of its head.
This holds of any tokens that parse, also of such that no source has.
-/

namespace ClassScript

open Computability Language ClassScript.Span

namespace Parser

theorem unaryOp?_isText {t : Token} {op : UnaryOp} (h : unaryOp? t = some op) :
    t.isText op.symbol = true := by
  have texts (hkind : t.kind ≠ .string) (htext : t.text = op.symbol) :
      t.isText op.symbol = true := by
    simp [Token.isText, hkind, htext]
  rw [unaryOp?] at h
  split at h
  · rename_i hkind
    have hkind : t.kind ≠ .string := by rcases hkind with hkind | hkind <;> rw [hkind] <;> decide
    split at h <;> cases h
    all_goals exact texts hkind ‹_›
  · cases h

theorem operatorOf?_isText {level : Nat} {t : Token} {op : BinaryOp}
    (h : operatorOf? level t = some op) : t.isText op.symbol = true := by
  have hop := (Option.filter_eq_some_iff.mp h).1
  rw [binaryOp?] at hop
  split at hop
  · cases hop
  · rename_i hkind
    have symbol := List.find?_some hop
    simp [Token.isText, hkind, (eq_of_beq symbol).symm]

theorem spans_unary {operand : Parser Expr} (h : Spans 1 operand Expr.span) :
    Spans 1 (unary operand) Expr.span := by
  intro ts
  induction ts with
  | nil => exact h []
  | cons t ts ih =>
    cases hop : unaryOp? t with
    | none =>
      rw [SpansAt, unary, hop]
      exact h (t :: ts)
    | some op =>
      intro done hdone e rest hok
      cases hdone
      rw [unary, hop] at hok
      dsimp only at hok
      cases hinner : unary operand ts with
      | error e =>
        rw [hinner] at hok
        cases hok
      | ok r =>
        obtain ⟨e', rest'⟩ := r
        rw [hinner] at hok
        cases hok
        obtain ⟨pre, rfl, hpre⟩ := ih [] nil_mem_one e' rest' hinner
        have operator : [t] ∈ sign op.symbol := ⟨t, rfl, unaryOp?_isText hop⟩
        have span := le_enclosed _ (append_mem_mul (mem_headed operator) hpre)
        rw [← Expr.span] at span
        exact ⟨t :: pre, rfl, span⟩

theorem spans_chain {operand : Parser Expr} (h : Spans 1 operand Expr.span) (level : Nat) :
    Spans 1 (chain level operand) Expr.span := by
  apply h.bind_first
  -- what has been read so far is the left operand of the next operator
  apply Spans.repeated
  intro left
  apply Spans.optionally
  intro t op ts hop
  have operator : [t] ∈ sign op.symbol := ⟨t, rfl, operatorOf?_isText hop⟩
  apply SpansAt.skip (mem_headed operator)
  apply (h.frame ts).bind
  intro right
  exact .bare (by rw [Expr.span])

theorem spans_binary {operand : Parser Expr} (h : Spans 1 operand Expr.span) (levels : Nat) :
    Spans 1 (binary operand levels) Expr.span := by
  induction levels with
  | zero => exact h
  | succ levels ih => exact spans_chain ih levels

section Expressions

variable {x : Parser Expr} (hx : Spans 1 x Expr.span)

include hx

theorem spans_arguments :
    Spans 1 (parenthesized x) fun args => Span.parenthesized (Expr.spans args) := by
  apply (Spans.parenthesized hx).mono
  intro args
  rw [Expr.spans_eq_map]

theorem spans_afterPoint (target : Expr) (line : Nat) :
    Spans (target.span * headed line (sign ".")) (afterPoint x target line) Expr.span := by
  apply (Spans.name .member).bind
  intro m
  apply (Spans.guarded _ (spans_arguments hx)).bind
  intro args
  cases args with
  | none => exact .bare (by rw [Expr.span, Rendering.optional, mul_one])
  | some args => exact .bare (by rw [Expr.span, Rendering.optional])

omit hx in
theorem spans_newObject (line : Nat) :
    Spans (headed line (keyword "new")) (newObject line) Expr.span := by
  apply (Spans.name .className).bind
  intro c
  have parentheses : Spans 1 (after "(" (expect ")")) fun _ => possibly (sign "(" * sign ")") := by
    apply (Spans.after "(" (.expect ")")).mono
    intro found
    cases found with
    | none => exact fun _ h => Or.inl h
    | some _ => exact fun _ h => Or.inr h
  apply parentheses.bind
  intro _
  exact .bare (by rw [Expr.span])

theorem spans_superCall (line : Nat) :
    Spans (headed line (keyword "super")) (superCall x line) Expr.span := by
  apply (Spans.expect ".").bind
  intro _
  apply (Spans.name .method).bind
  intro m
  apply (spans_arguments hx).bind
  intro args
  exact .bare (by rw [Expr.span])

theorem spans_closing :
    Spans (one fun t => t.kind = .lparen) (closing x) Expr.span := by
  apply hx.bind
  intro e
  apply (Spans.expect ")").bind
  intro _
  exact .pure e.parentheses_le_span

theorem spans_afterKeyword? {t : Token} {r : Parser Expr} (h : afterKeyword? x t = some r) :
    Spans (headed t.line (keyword t.text)) r Expr.span := by
  rw [afterKeyword?] at h
  split at h
  all_goals rename_i htext
  all_goals cases h
  all_goals rw [htext]
  · exact .bare (by rw [Expr.span, if_pos rfl])
  · exact .bare (by rw [Expr.span, if_neg (by decide)])
  · exact .bare (by rw [Expr.span])
  · apply Spans.pure
    rw [Expr.span, if_pos rfl]
    exact (headed_mono fun _ h => Or.inr h).trans (le_enclosed _)
  · exact spans_newObject t.line
  · exact spans_superCall hx t.line

theorem spans_afterName (f : Token) :
    Spans (headed f.line (named f.text)) (afterName x f) Expr.span := by
  apply (Spans.guarded _ (spans_arguments hx)).bind
  intro args
  cases args with
  | none =>
    apply Spans.pure
    rw [Expr.span, Rendering.optional, mul_one]
    refine (headed_mono ?_).trans (le_enclosed _)
    split
    · exact fun _ h => Or.inl h
    · exact le_rfl
  | some args =>
    exact .bare (by rw [Expr.span, Rendering.optional])

theorem spans_afterFirst? {t : Token} {r : Parser Expr} (h : afterFirst? x t = some r) :
    ∃ l : Language Token, [t] ∈ l ∧ Spans l r Expr.span := by
  rw [afterFirst?] at h
  split at h
  all_goals rename_i hkind
  · cases h
    have number : [t] ∈ one fun u => u.kind = .number ∧ numberValue u.text = numberValue t.text :=
      ⟨t, rfl, hkind, rfl⟩
    exact ⟨_, mem_headed number, .bare (by rw [Expr.span])⟩
  · cases h
    have text : [t] ∈ one fun u => u.kind = .string ∧ Text.unescape u.text = Text.unescape t.text :=
      ⟨t, rfl, hkind, rfl⟩
    exact ⟨_, mem_headed text, .bare (by rw [Expr.span])⟩
  · cases h
    have name : [t] ∈ named t.text := ⟨t, rfl, hkind, rfl⟩
    exact ⟨_, mem_headed name, spans_afterName hx t⟩
  · cases h
    have opening : [t] ∈ one fun u => u.kind = .lparen := ⟨t, rfl, hkind⟩
    exact ⟨_, opening, spans_closing hx⟩
  · have word : [t] ∈ keyword t.text := ⟨t, rfl, hkind, rfl⟩
    exact ⟨_, mem_headed word, spans_afterKeyword? hx h⟩
  · cases h

theorem spans_primary : Spans 1 (primary x) Expr.span := by
  apply Spans.peek
  · exact .fail _
  · intro t ts
    apply SpansAt.pastFirst
    · intro r hr
      exact spans_afterFirst? hx hr
    · intro _
      exact .fail _

theorem spans_operand : Spans 1 (operand x) Expr.span := by
  apply (spans_primary hx).bind_first
  apply Spans.repeated
  intro target
  apply Spans.whenNext
  intro dot ts hdot
  have point : [dot] ∈ sign "." := ⟨dot, rfl, hdot⟩
  exact SpansAt.skip (mem_headed point) (spans_afterPoint hx target dot.line ts)

theorem spans_expressionStep : Spans 1 (expressionStep x) Expr.span :=
  spans_binary (spans_unary (spans_operand hx)) BinaryOp.levels

end Expressions

theorem spans_expression (depth : Nat) : Spans 1 (expression depth) Expr.span := by
  induction depth with
  | zero => exact .tooDeep
  | succ depth ih => exact spans_expressionStep ih

theorem spans_params : Spans 1 params names :=
  Spans.parenthesized (.name .parameter)

theorem text_of_ofWord? {t : Token} {a : Access} (h : Access.ofWord? t.text = some a) :
    t.text = a.word := by
  unfold Access.ofWord? at h
  split at h <;> cases h
  all_goals assumption

/-- Without an access modifier it is as if `private` were there. -/
theorem spans_access? : Spans 1 access? fun word => Span.access (word.getD .privateAccess) := by
  apply (Spans.optionally (D := Span.access) _).mono
  · intro word
    cases word with
    | none => exact fun ts hts => Or.inl ⟨hts, rfl⟩
    | some a => exact le_rfl
  · intro t a ts ha
    have word : [t] ∈ Span.access a := Or.inr ⟨t, rfl, text_of_ofWord? ha⟩
    exact SpansAt.skip_first word (.pure le_rfl)

/-- The access modifier of a signature is any or none. -/
theorem access_le (a : Access) :
    Span.access a ≤ possibly (one fun t => (Access.ofWord? t.text).isSome = true) := by
  rintro _ (⟨rfl, _⟩ | ⟨t, rfl, ht⟩)
  · exact Or.inl rfl
  · have word : (Access.ofWord? a.word).isSome = true := by cases a <;> rfl
    rw [← ht] at word
    exact Or.inr ⟨t, rfl, word⟩

theorem spans_modifiers : Spans 1 modifiers fun flags => Span.modifiers flags.1 flags.2 := by
  apply (Spans.accept "virtual").bind_first
  intro isVirtual
  cases isVirtual with
  | true => exact .pure le_rfl
  | false =>
    apply (Spans.accept "override").bind
    intro isOverride
    cases isOverride with
    | true => exact .pure (one_mul _).le
    | false => exact .pure (one_mul _).le

section Simple

variable {x : Parser Expr} (hx : Spans 1 x Expr.span)

include hx

theorem spans_assigned? : Spans 1 (assigned? x) (Rendering.optional Expr.assignedSpan) := by
  apply (Spans.whenNext (D := Expr.assignedSpan) _).mono
  · intro value
    cases value <;> exact le_rfl
  · intro eq ts heq
    have assign : [eq] ∈ one fun t => t.kind = .assign := ⟨eq, rfl, of_decide_eq_true heq⟩
    exact SpansAt.skip_first assign (hx.frame ts)

omit hx in
/-- What is assigned to is written as a member access. -/
theorem span_member_le (target : Expr) (member : String) (line : Nat) :
    (Expr.member target member line).span ≤
      enclosed (target.span * sign "." * named member) := by
  rw [Expr.span]
  apply enclosed_mono
  gcongr
  exact fun _ h => h.1

theorem spans_afterExpression (e : Expr) (line : Nat) :
    Spans e.span (afterExpression x e line) fun s => onLine line s.span := by
  have alone : e.span ≤ onLine line (Simple.expr e line).span := le_onLine e.nil_notMem_span le_rfl
  rw [afterExpression]
  split
  · exact .pure alone
  · rename_i target member htarget
    apply (spans_assigned? hx).bind
    intro value
    cases value with
    | none =>
      apply Spans.pure
      rw [Rendering.optional, mul_one]
      exact alone
    | some value =>
      cases e with
      | member target' member' line' =>
        cases htarget
        apply Spans.pure
        have nonempty : [] ∉ enclosed (target.span * sign "." * named member) := by
          simp [nil_mem_enclosed, nil_mem_mul, target.nil_notMem_span]
        refine le_trans ?_ (le_onLine (fun h => nonempty (nil_mem_mul.mp h).1) le_rfl)
        exact mul_le_mul' (span_member_le target member line') le_rfl
      | _ => cases htarget

theorem spans_simpleFromExpression : Spans 1 (simpleFromExpression x) Simple.span := by
  apply Spans.currentLine
  intro line
  apply hx.bind_first
  intro e
  exact spans_afterExpression hx e line

theorem spans_simple : Spans 1 (simple x) Simple.span := by
  intro ts
  match ts with
  | [] => exact spans_simpleFromExpression hx []
  | [t] => exact spans_simpleFromExpression hx [t]
  | name :: eq :: tail =>
    by_cases h : name.kind = .identifier ∧ eq.kind = .assign
    · have hname : [name] ∈ named name.text := ⟨name, rfl, h.1, rfl⟩
      have hassign : [eq] ∈ one fun t => t.kind = .assign := ⟨eq, rfl, h.2⟩
      rw [SpansAt, simple_of_assignment h.1 h.2]
      apply SpansAt.skip_first (mem_headed hname)
      apply SpansAt.skip hassign
      apply (hx.frame tail).bind
      intro value
      apply Spans.pure
      rw [Simple.span, Expr.assignedSpan, mul_assoc]
    · rw [SpansAt, simple_of_not_assignment h]
      exact spans_simpleFromExpression hx _

end Simple

theorem spans_separated {statement : Parser Stmt} (h : Spans 1 statement Stmt.span) :
    Spans 1 (separated statement) fun s => s.span * semicolons := by
  apply h.bind_first
  intro s
  apply Spans.skipSeparators.bind
  intro _
  exact .pure le_rfl

/-- The parsers one level further in take spans of their answers. -/
structure Inner.Spans (p : Inner) : Prop where
  expression : Parser.Spans 1 p.expression Expr.span
  statement : Parser.Spans 1 p.statement Stmt.span

section Statements

variable {p : Inner} (hp : p.Spans)

include hp

theorem spans_bodyStatements : Spans (1 * sign "\x7b") (bodyStatements p) fun ss =>
    braced (semicolons * Stmt.spanAll ss) := by
  rw [one_mul]
  apply Spans.skipSeparators.bind
  intro _
  apply (Spans.unlessClosed (spans_separated hp.statement)).bind
  intro ss
  apply (Spans.expect "\x7d").bind
  intro _
  apply Spans.pure
  rw [← Stmt.spanAll_eq_prod, braced, mul_assoc (sign "\x7b")]

theorem spans_block : Spans 1 (block p) Block.span := by
  apply Spans.currentLine
  intro line
  apply (Spans.afterSign (spans_bodyStatements hp)).bind_first
  intro found
  cases found with
  | none =>
    apply hp.statement.bind
    intro s
    apply Spans.pure
    rw [Option.elim_none, one_mul, Block.span, Stmt.spanAlone]
    exact le_onLine s.startsOn_span.nil_notMem fun _ h => Or.inr h
  | some ss =>
    apply Spans.pure
    rw [Option.elim_some, Block.span]
    exact le_onLine nil_notMem_braced fun _ h => Or.inl h

theorem spans_condition : Spans 1 (condition p) Expr.conditionSpan := by
  apply (Spans.expect "(").bind_first
  intro _
  apply hp.expression.bind
  intro c
  apply (Spans.expect ")").bind
  intro _
  exact .pure (mul_assoc _ _ _).le

theorem spans_conditional (line : Nat) :
    Spans (headed line (keyword "if")) (conditional p line) Stmt.span := by
  apply (spans_condition hp).bind
  intro c
  apply (spans_block hp).bind
  intro b
  apply (Spans.after "else" (spans_block hp)).bind
  intro otherwise
  apply Spans.pure
  cases otherwise with
  | none => rw [Stmt.span, Rendering.optional, mul_one]
  | some b' => rw [Stmt.span, Rendering.optional]

theorem spans_whileLoop (line : Nat) :
    Spans (headed line (keyword "while")) (whileLoop p line) Stmt.span := by
  apply (spans_condition hp).bind
  intro c
  apply (spans_block hp).bind
  intro b
  apply Spans.pure
  rw [Stmt.span]

theorem spans_forLoop (line : Nat) :
    Spans (headed line (keyword "for")) (forLoop p line) Stmt.span := by
  have header := spans_simple hp.expression
  apply (Spans.expect "(").bind
  intro _
  apply header.bind
  intro initializer
  apply (Spans.expect ";").bind
  intro _
  apply hp.expression.bind
  intro c
  apply (Spans.expect ";").bind
  intro _
  apply header.bind
  intro iterator
  apply (Spans.expect ")").bind
  intro _
  apply (spans_block hp).bind
  intro b
  apply Spans.pure
  rw [Stmt.span]

theorem spans_function (line : Nat) :
    Spans (headed line (keyword "function")) (function p line) Stmt.span := by
  apply (Spans.name .function).bind
  intro f
  apply spans_params.bind
  intro ps
  apply (spans_block hp).bind
  intro b
  apply Spans.pure
  rw [Stmt.span]

theorem spans_returnValue (line : Nat) :
    Spans (headed line (keyword "return")) (returnValue p line) Stmt.span := by
  apply (Spans.guarded _ hp.expression).bind
  intro e
  apply Spans.endSimple.bind
  intro _
  apply Spans.pure
  rw [Stmt.span]

theorem spans_valueStatement {word : Language Token} {make : Expr → Stmt}
    (hmake : ∀ e, (make e).span = word * e.span * ending) :
    Spans word (valueStatement p make) Stmt.span := by
  apply hp.expression.bind
  intro e
  apply Spans.endSimple.bind
  intro _
  exact .pure (hmake e).ge

omit hp in
theorem spans_importModule (line : Nat) :
    Spans (headed line (keyword "import")) (importModule line) Stmt.span := by
  apply (Spans.name .module).bind
  intro m
  apply (Spans.expect ";").bind
  intro _
  apply Spans.pure
  rw [Stmt.span]

theorem spans_catchClause : Spans 1 (catchClause p) fun clause =>
    sign "(" * named clause.1 * sign ")" * clause.2.span := by
  apply (Spans.expect "(").bind_first
  intro _
  apply (Spans.name .exceptionVariable).bind
  intro x
  apply (Spans.expect ")").bind
  intro _
  apply (spans_block hp).bind
  intro b
  exact .pure le_rfl

theorem spans_handlers : Spans 1 (handlers p) Handlers.span := by
  have final := Spans.after "finally" (spans_block hp)
  apply (Spans.after "catch" (spans_catchClause hp)).bind_first
  intro found
  cases found with
  | none =>
    apply final.bind
    intro found
    cases found with
    | none => exact .fail _
    | some f =>
      apply Spans.pure
      rw [Handlers.span, Rendering.optional, Rendering.optional, one_mul]
  | some clause =>
    apply final.bind
    intro found
    cases found with
    | none =>
      apply Spans.pure
      rw [Handlers.span, Rendering.optional, Rendering.optional, mul_one]
    | some f =>
      apply Spans.pure
      rw [Handlers.span, Rendering.optional, Rendering.optional]

theorem spans_tryBlock (line : Nat) :
    Spans (headed line (keyword "try")) (tryBlock p line) Stmt.span := by
  apply (spans_block hp).bind
  intro b
  apply (spans_handlers hp).bind
  intro h
  apply Spans.pure
  rw [Stmt.span]

/-- A method after `function`, with the modifiers in front of that. -/
theorem spans_method (a : Access) (flags : Bool × Bool) (line : Nat) :
    Spans (access a * Span.modifiers flags.1 flags.2 * sign "function") (method p a flags line)
      fun m => onLine line m.span := by
  apply (Spans.name .method).bind
  intro m
  apply spans_params.bind
  intro ps
  apply (spans_block hp).bind
  intro b
  apply Spans.pure
  rw [Member.span]
  exact le_onLine (by simp [nil_mem_mul, sign, nil_notMem_one]) le_rfl

theorem spans_field (a : Access) (flags : Bool × Bool) (line : Nat) :
    Spans (access a * Span.modifiers flags.1 flags.2) (field p a line)
      fun m => onLine line m.span := by
  apply (Spans.name .field).bind
  intro x
  apply (spans_assigned? hp.expression).bind
  intro value
  apply (Spans.expect ";").bind
  intro _
  apply Spans.pure
  rw [Member.span]
  refine le_onLine (by simp [nil_mem_mul, sign, nil_notMem_one]) ?_
  gcongr
  exact fun _ h => ⟨flags.1, flags.2, h⟩

theorem spans_member : Spans 1 (member p) Member.span := by
  apply Spans.currentLine
  intro line
  apply spans_access?.bind_first
  intro word
  apply spans_modifiers.bind
  intro flags
  apply (Spans.afterSign (spans_method hp _ flags line)).bind_first
  intro found
  cases found with
  | none => exact spans_field hp _ flags line
  | some m => exact .pure le_rfl

omit hp in
theorem spans_interfaces :
    Spans 1 (after "implements" (commaSeparated (name .interface))) fun is =>
      implemented (is.getD []) := by
  have names : Spans (1 * sign "implements") (commaSeparated (name .interface)) implemented :=
    .commaSeparated (.name .interface) fun _ _ => by rw [one_mul, implemented]
  apply (Spans.afterSign names).mono
  intro is
  cases is <;> exact le_rfl

theorem spans_classDecl (line : Nat) :
    Spans (headed line (keyword "class")) (classDecl p line) Stmt.span := by
  apply (Spans.name .className).bind
  intro c
  apply (Spans.after "extends" (.name .baseClass)).bind
  intro base
  apply spans_interfaces.bind
  intro interfaces
  apply (Spans.inBraces (spans_member hp)).bind
  intro members
  apply Spans.pure
  rw [Stmt.span, Member.spanAll_eq_prod]

omit hp in
theorem spans_signature : Spans 1 signature Signature.span := by
  apply Spans.currentLine
  intro line
  apply spans_access?.bind_first
  intro word
  apply (Spans.expect "function").bind
  intro _
  apply (Spans.name .method).bind
  intro m
  apply spans_params.bind
  intro ps
  apply Spans.endSimple.bind
  intro _
  apply Spans.pure
  rw [Signature.span]
  refine le_onLine (by simp [nil_mem_mul, sign, nil_notMem_one]) ?_
  gcongr
  exact access_le _

omit hp in
theorem spans_interfaceDecl (line : Nat) :
    Spans (headed line (keyword "interface")) (interfaceDecl line) Stmt.span := by
  apply (Spans.name .interface).bind
  intro i
  apply (Spans.inBraces spans_signature).bind
  intro methods
  apply Spans.pure
  rw [Stmt.span]

omit hp in
theorem spans_lone {before : Language Token} {s : Stmt} (hs : s.span = before * ending) :
    Spans before (lone s) Stmt.span := by
  apply Spans.endSimple.bind
  intro _
  exact .pure hs.ge

theorem spans_simpleStatement : Spans 1 (simpleStatement p) Stmt.span := by
  apply (spans_simple hp.expression).bind_first
  intro s
  apply Spans.endSimple.bind
  intro _
  apply Spans.pure
  rw [Stmt.span]

theorem spans_afterStatementWord? {t : Token} {r : Parser Stmt}
    (h : afterStatementWord? p t = some r) :
    Spans (headed t.line (keyword t.text)) r Stmt.span := by
  unfold afterStatementWord? at h
  split at h
  all_goals rename_i htext
  all_goals cases h
  all_goals rw [htext]
  · exact spans_classDecl hp _
  · exact spans_interfaceDecl _
  · exact spans_function hp _
  · exact spans_conditional hp _
  · exact spans_whileLoop hp _
  · exact spans_forLoop hp _
  · exact spans_returnValue hp _
  · exact spans_tryBlock hp _
  · exact spans_valueStatement hp fun e => by rw [Stmt.span]
  · exact spans_importModule _
  · exact spans_lone (by rw [Stmt.span])
  · exact spans_lone (by rw [Stmt.span])

theorem spansAt_keywordStatement {t : Token} (ht : t.kind = .keyword) (ts : List Token) :
    SpansAt (t :: ts) 1 (keywordStatement p t) Stmt.span := by
  have word : [t] ∈ keyword t.text := ⟨t, rfl, ht, rfl⟩
  apply SpansAt.pastFirst
  · intro r hr
    exact ⟨_, mem_headed word, spans_afterStatementWord? hp hr⟩
  · intro _
    split
    · exact spans_simpleStatement hp (t :: ts)
    · exact .fail _

theorem spansAt_print {t : Token} {ts : List Token} (h : startsPrint t ts.head? = true) :
    SpansAt (t :: ts) 1 (do skip; valueStatement p (.print · t.line)) Stmt.span := by
  obtain ⟨hkind, htext⟩ := Bool.and_eq_true_iff.mp (Bool.and_eq_true_iff.mp h).1
  have word : [t] ∈ named "print" := ⟨t, rfl, of_decide_eq_true hkind, eq_of_beq htext⟩
  exact .skip_first (mem_headed word) (spans_valueStatement hp (fun e => by rw [Stmt.span]) ts)

theorem spans_statementStep : Spans 1 (statementStep p) Stmt.span := by
  intro ts
  cases ts with
  | nil =>
    intro done _ s rest hok
    cases hok
  | cons t ts =>
    by_cases keyword : t.kind = .keyword
    · rw [SpansAt, statementStep_of_keyword keyword rfl]
      exact spansAt_keywordStatement hp keyword ts
    · by_cases name : t.kind = .identifier
      · rw [SpansAt, statementStep_of_name name]
        split
        · exact spansAt_print hp ‹_›
        · exact spans_simpleStatement hp (t :: ts)
      · rw [SpansAt, statementStep_of_symbol keyword name rfl]
        exact spans_simpleStatement hp (t :: ts)

end Statements

theorem spans_statement (depth : Nat) : Spans 1 (statement depth) Stmt.span := by
  induction depth with
  | zero => exact .tooDeep
  | succ depth ih => exact spans_statementStep ⟨spans_expression depth, ih⟩

theorem spans_program (depth : Nat) : Spans 1 (program depth) Program.span := by
  apply Spans.skipSeparators.bind_first
  intro _
  apply (Spans.many (Spans.guarded _ (spans_separated (spans_statement depth)))).bind
  intro ss
  apply Spans.pure
  rw [← Stmt.spanAll_eq_prod]
  exact le_rfl

end Parser

open ClassScript.Parser

/-- The tokens of a parsed program are a span of it. -/
theorem parseTokens_mem_span {depth : Nat} {ts : List Token} {p : Program}
    (h : parseTokens depth ts = .ok p) : ts ∈ p.span := by
  rw [parseTokens] at h
  split at h
  · rename_i q rest hrun
    cases h
    obtain ⟨pre, hts, hpre⟩ := spans_program depth ts [] nil_mem_one p rest hrun
    rw [nothing_left_of_program hrun, List.append_nil] at hts
    rw [hts]
    exact hpre
  · cases h

end ClassScript
