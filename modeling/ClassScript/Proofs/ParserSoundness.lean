import ClassScript.Proofs.TakenTokens

/-!
# The parser accepts only the grammar

When a parser succeeds, the tokens that it has taken derive what it answers. This is shown of each
parser, given the same of the parsers inside it, and of expressions and statements by induction on
the depth. At the end of a program no token is left, so that all of them derive it.
-/

namespace ClassScript

open ClassScript.Derivation

namespace Parser

theorem unaryOp?_is {t : Token} {op : UnaryOp} (lexeme : IsLexeme t.kind t.text.toList)
    (h : unaryOp? t = some op) : t.Is op.kind op.symbol := by
  apply Token.is_of_text lexeme op.spelled
  rw [unaryOp?] at h
  split at h
  · split at h
    · cases h
      assumption
    · cases h
      assumption
    · cases h
      assumption
    · cases h
  · cases h

theorem operatorOf?_is {level : Nat} {t : Token} {op : BinaryOp}
    (lexeme : IsLexeme t.kind t.text.toList) (h : operatorOf? level t = some op) :
    t.Is op.kind op.symbol ∧ op.level = level := by
  obtain ⟨hop, hlevel⟩ := Option.filter_eq_some_iff.mp h
  constructor
  · apply Token.is_of_text lexeme op.spelled
    rw [binaryOp?] at hop
    split at hop
    · cases hop
    · have symbol := List.find?_some hop
      exact (eq_of_beq symbol).symm
  · exact of_decide_eq_true hlevel

theorem takes_unary {operand : Parser Expr} (h : Takes operand (Expr.Derives 0)) :
    Takes (unary operand) (Expr.Derives 1) := by
  have base (ts : List Token) : TakesAt ts operand (Expr.Derives 1) :=
    (h ts).mono fun _ _ hD => .tighter hD
  intro ts
  induction ts with
  | nil => exact base []
  | cons t ts ih =>
    intro lexical e rest hok
    rw [unary] at hok
    cases hop : unaryOp? t with
    | none =>
      rw [hop] at hok
      exact base (t :: ts) lexical e rest hok
    | some op =>
      rw [hop] at hok
      cases hinner : unary operand ts with
      | error e =>
        rw [hinner] at hok
        cases hok
      | ok r =>
        obtain ⟨e', rest'⟩ := r
        rw [hinner] at hok
        cases hok
        obtain ⟨pre, rfl, hD⟩ := ih lexical.tail e' rest hinner
        have is := unaryOp?_is (lexical t List.mem_cons_self) hop
        exact ⟨t :: pre, rfl, .unary is hD⟩

theorem takes_chain {level : Nat} {operand : Parser Expr}
    (h : Takes operand (Expr.Derives (level + 1))) :
    Takes (chain level operand) (Expr.Derives (level + 2)) := by
  apply h.bind
  intro first pre hfirst
  -- what has been read so far is the left operand of the next operator
  apply Takes.repeated (D := Expr.Derives (level + 2)) _ (.tighter hfirst)
  intro left done hleft
  apply Takes.optionally
  intro t op ts lexeme hop
  obtain ⟨is, rfl⟩ := operatorOf?_is lexeme hop
  apply TakesAt.skip
  apply (h ts).map
  intro right pre hright
  exact .binary hleft is hright

theorem takes_binary {operand : Parser Expr} (h : Takes operand (Expr.Derives 1)) (levels : Nat) :
    Takes (binary operand levels) (Expr.Derives (levels + 1)) := by
  induction levels with
  | zero => exact h
  | succ levels ih => exact takes_chain ih

section Expressions

variable {x : Parser Expr} (hx : Takes x Expr.DerivesTop)

include hx

theorem takes_afterPoint {target : Expr} {done : List Token} {dot : Token}
    (htarget : target.Derives 0 done) (hdot : dot.Is .dot ".") :
    Takes (afterPoint x target dot.line) fun e ts => e.Derives 0 (done ++ dot :: ts) := by
  apply (Takes.name .member).bind
  rintro _ _ ⟨hm⟩
  apply (Takes.guarded _ (Takes.parenthesized hx)).bind
  intro args pre hargs
  cases args with
  | none =>
    cases hargs
    exact .pure (.member htarget hdot hm)
  | some args =>
    apply Takes.pure
    rw [List.append_nil]
    exact .methodCall htarget hdot hm hargs

omit hx in
theorem takes_newObject {t : Token} (ht : t.Is .keyword "new") :
    Takes (newObject t.line) fun e ts => e.Derives 0 (t :: ts) := by
  apply (Takes.name .className).bind
  rintro _ _ ⟨hc⟩
  apply (Takes.after spelled_lparen (.expect spelled_rparen)).map
  intro found pre hfound
  cases found with
  | none =>
    cases hfound
    exact .new ht hc
  | some _ =>
    obtain ⟨l, _, rfl, hl, r, rfl, hr⟩ := hfound
    exact .newCalled ht hc hl hr

theorem takes_superCall {t : Token} (ht : t.Is .keyword "super") :
    Takes (superCall x t.line) fun e ts => e.Derives 0 (t :: ts) := by
  apply (Takes.expect spelled_dot).bind
  rintro _ _ ⟨dot, rfl, hdot⟩
  apply (Takes.name .method).bind
  rintro _ _ ⟨hm⟩
  apply (Takes.parenthesized hx).map
  intro args pre hargs
  exact .superCall ht hdot hm hargs

theorem takes_closing : Takes (closing x) fun e ts =>
    ∃ pre r, ts = pre ++ [r] ∧ e.DerivesTop pre ∧ r.Is .rparen ")" := by
  apply hx.bind
  intro e pre he
  apply (Takes.expect spelled_rparen).map
  rintro _ _ ⟨r, rfl, hr⟩
  exact ⟨pre, r, rfl, he, hr⟩

theorem takes_afterKeyword? {t : Token} {r : Parser Expr} (ht : t.kind = .keyword)
    (h : afterKeyword? x t = some r) : Takes r fun e ts => e.Derives 0 (t :: ts) := by
  rw [afterKeyword?] at h
  split at h
  · rename_i htext
    cases h
    exact .pure (.boolean (b := true) ⟨ht, htext⟩)
  · rename_i htext
    cases h
    exact .pure (.boolean (b := false) ⟨ht, htext⟩)
  · rename_i htext
    cases h
    exact .pure (.null ⟨ht, htext⟩)
  · rename_i htext
    cases h
    exact .pure (.this ⟨ht, htext⟩)
  · rename_i htext
    cases h
    exact takes_newObject ⟨ht, htext⟩
  · rename_i htext
    cases h
    exact takes_superCall hx ⟨ht, htext⟩
  · cases h

theorem takes_afterName {f : Token} (hf : f.kind = .identifier) :
    Takes (afterName x f) fun e ts => e.Derives 0 (f :: ts) := by
  apply (Takes.guarded _ (Takes.parenthesized hx)).bind
  intro args pre hargs
  cases args with
  | none =>
    cases hargs
    exact .pure (.var hf)
  | some args =>
    apply Takes.pure
    rw [List.append_nil]
    exact .call hf hargs

theorem takes_afterFirst? {t : Token} {r : Parser Expr} (lexeme : IsLexeme t.kind t.text.toList)
    (h : afterFirst? x t = some r) : Takes r fun e ts => e.Derives 0 (t :: ts) := by
  rw [afterFirst?] at h
  split at h
  · rename_i hkind
    cases h
    exact .pure (.number hkind)
  · rename_i hkind
    cases h
    exact .pure (.text hkind)
  · rename_i hkind
    cases h
    exact takes_afterName hx hkind
  · rename_i hkind
    cases h
    apply (takes_closing hx).mono
    rintro e _ ⟨pre, r, rfl, he, hr⟩
    exact .enclosed (Token.is_lparen lexeme hkind) he hr
  · rename_i hkind
    exact takes_afterKeyword? hx hkind h
  · cases h

theorem takes_primary : Takes (primary x) (Expr.Derives 0) := by
  apply Takes.peek
  · exact .fail _
  · intro t ts lexical
    apply TakesAt.pastFirst _ _ lexical
    · intro r hr
      exact takes_afterFirst? hx (lexical t List.mem_cons_self) hr
    · intro _
      exact .fail _

theorem takes_operand : Takes (operand x) (Expr.Derives 0) := by
  apply (takes_primary hx).bind
  intro first pre hfirst
  apply Takes.repeated _ hfirst
  intro target done htarget
  apply Takes.whenNext
  intro dot ts lexeme hdot
  apply TakesAt.skip
  exact takes_afterPoint hx htarget (Token.is_of_isText lexeme spelled_dot hdot) ts

theorem takes_expressionStep : Takes (expressionStep x) Expr.DerivesTop :=
  takes_binary (takes_unary (takes_operand hx)) BinaryOp.levels

end Expressions

theorem takes_expression (depth : Nat) : Takes (expression depth) Expr.DerivesTop := by
  induction depth with
  | zero =>
    intro ts _ e rest hok
    cases hok
  | succ depth ih => exact takes_expressionStep ih

theorem takes_params : Takes params (Parenthesized Named) :=
  Takes.parenthesized (.name .parameter)

theorem takes_access? : Takes access? (Maybe fun a ts => ∃ t : Token, ts = [t] ∧
    t.Is .keyword a.word) := by
  apply Takes.optionally
  intro t a ts lexeme ha
  apply TakesAt.skip
  apply TakesAt.pure
  have word : t.text = a.word := by
    unfold Access.ofWord? at ha
    split at ha
    · cases ha
      assumption
    · cases ha
      assumption
    · cases ha
      assumption
    · cases ha
  exact ⟨t, rfl, Token.is_of_text lexeme a.spelled word⟩

/-- Without an access modifier it is as if `private` were there. -/
theorem accessWord_of_maybe {word : Option Access} {ts : List Token}
    (h : Maybe (fun a ts => ∃ t : Token, ts = [t] ∧ t.Is .keyword a.word) word ts) :
    AccessWord (word.getD .privateAccess) ts := by
  cases word with
  | none =>
    cases h
    exact .absent
  | some a =>
    obtain ⟨t, rfl, ht⟩ := h
    exact .present ht

theorem takes_modifiers : Takes modifiers fun flags ts => Modifier flags.1 flags.2 ts := by
  apply (Takes.accept (spelled_keyword "virtual" (by decide))).bind
  rintro _ _ (⟨rfl, t, rfl, ht⟩ | ⟨rfl, rfl⟩)
  · exact .pure (.isVirtual ht)
  · apply (Takes.accept (spelled_keyword "override" (by decide))).map
    rintro _ _ (⟨rfl, t, rfl, ht⟩ | ⟨rfl, rfl⟩)
    · exact .isOverride ht
    · exact .absent

theorem takes_inBraces {α : Type} {item : Parser α} {D : α → List Token → Prop}
    (h : Takes item D) : Takes (inBraces item) fun as ts => ∃ l pre r, ts = l :: (pre ++ [r]) ∧
      l.Is .lbrace "\x7b" ∧ Sequence D as pre ∧ r.Is .rbrace "\x7d" := by
  apply (Takes.expect spelled_lbrace).bind
  rintro _ _ ⟨l, rfl, hl⟩
  apply (Takes.unlessClosed h).bind
  intro as pre has
  apply (Takes.expect spelled_rbrace).map
  rintro _ _ ⟨r, rfl, hr⟩
  exact ⟨l, pre, r, rfl, hl, has, hr⟩

section Simple

variable {x : Parser Expr} (hx : Takes x Expr.DerivesTop)

include hx

theorem takes_assigned? : Takes (assigned? x) (Maybe (Then .assign "=" Expr.DerivesTop)) := by
  apply Takes.whenNext
  intro eq ts lexeme heq
  apply TakesAt.skip
  apply (hx ts).mono
  intro e pre he
  exact ⟨eq, pre, rfl, Token.is_assign lexeme (of_decide_eq_true heq), he⟩

theorem takes_afterExpression {e : Expr} {pre : List Token} (he : e.DerivesTop pre) (line : Nat) :
    Takes (afterExpression x e line) fun s ts => line = firstLine pre → s.Derives (pre ++ ts) := by
  have alone (hline : line = firstLine pre) : (Simple.expr e line).Derives (pre ++ []) := by
    rw [hline, List.append_nil]
    exact .expr he
  rw [afterExpression]
  split
  · exact .pure alone
  · rename_i target member htarget
    apply (takes_assigned? hx).bind
    intro value ts hvalue
    cases value with
    | none =>
      cases hvalue
      exact .pure alone
    | some value =>
      obtain ⟨eq, tail, rfl, heq, hvalue⟩ := hvalue
      apply Takes.pure
      intro hline
      rw [hline, List.append_nil]
      cases e with
      | member target' member' line' =>
        cases htarget
        exact .assignMember he heq hvalue
      | _ => cases htarget

theorem takes_simpleFromExpression : Takes (simpleFromExpression x) Simple.Derives := by
  apply Takes.currentLine
  intro line
  apply hx.bind
  intro e pre he
  apply (takes_afterExpression hx he line).mono
  intro s ts hs
  constructor
  · intro hnil
    exact he.ne_nil (List.append_eq_nil_iff.mp hnil).1
  · intro hline
    exact hs (hline.trans (firstLine_append he.ne_nil ts))

theorem takes_simple : Takes (simple x) Simple.Derives := by
  intro ts
  match ts with
  | [] => exact takes_simpleFromExpression hx []
  | [t] => exact takes_simpleFromExpression hx [t]
  | name :: eq :: tail =>
    intro lexical
    by_cases h : name.kind = .identifier ∧ eq.kind = .assign
    · have heq := Token.is_assign (lexical eq (List.mem_cons_of_mem _ List.mem_cons_self)) h.2
      have assigned : TakesAt (name :: eq :: tail) (assignment x name) Simple.Derives := by
        apply TakesAt.skip
        apply TakesAt.skip
        apply (hx tail).map
        intro value pre hvalue
        exact .assign h.1 heq hvalue
      rw [simple_of_assignment h.1 h.2]
      exact assigned lexical
    · rw [simple_of_not_assignment h]
      exact takes_simpleFromExpression hx _ lexical

end Simple

theorem takes_separated {statement : Parser Stmt} (h : Takes statement Stmt.Derives) :
    Takes (separated statement) (Followed Stmt.Derives) := by
  apply h.bind
  intro s pre hs
  apply Takes.skipSeparators.map
  intro _ semicolons hsemicolons
  exact ⟨pre, semicolons, rfl, hs, hsemicolons⟩

/-- The parsers one level further in take what derives their answers. -/
structure Inner.Sound (p : Inner) : Prop where
  expression : Takes p.expression Expr.DerivesTop
  statement : Takes p.statement Stmt.Derives

section Statements

variable {p : Inner} (hp : p.Sound)

include hp

theorem takes_bodyStatements : Takes (bodyStatements p) fun ss ts =>
    ∀ l : Token, l.Is .lbrace "\x7b" → Block.Derives (.mk ss l.line) (l :: ts) := by
  apply Takes.skipSeparators.bind
  intro _ semicolons hsemicolons
  apply (Takes.unlessClosed (takes_separated hp.statement)).bind
  intro ss pre hss
  apply (Takes.expect spelled_rbrace).map
  rintro _ _ ⟨r, rfl, hr⟩ l hl
  exact .braces hl hsemicolons (.of_sequence hss) hr

theorem takes_block : Takes (block p) Block.Derives := by
  apply Takes.currentLine
  intro line
  apply (Takes.after spelled_lbrace (takes_bodyStatements hp)).bind
  intro found pre hfound
  cases found with
  | none =>
    -- without a brace the body is one statement, which has a first token
    cases hfound
    apply hp.statement.map
    intro s ts hs
    constructor
    · exact hs.ne_nil
    · intro hline
      rw [hline]
      exact .single hs
  | some ss =>
    obtain ⟨l, tail, rfl, hl, hbody⟩ := hfound
    apply Takes.pure
    rw [List.append_nil]
    constructor
    · exact List.cons_ne_nil l tail
    · intro hline
      rw [hline]
      exact hbody l hl

theorem takes_condition : Takes (condition p) Expr.DerivesCondition := by
  apply (Takes.expect spelled_lparen).bind
  rintro _ _ ⟨l, rfl, hl⟩
  apply (takes_closing hp.expression).mono
  rintro c _ ⟨pre, r, rfl, hc, hr⟩
  exact .mk hl hc hr

theorem takes_conditional {t : Token} (ht : t.Is .keyword "if") :
    Takes (conditional p t.line) fun s ts => s.Derives (t :: ts) := by
  apply (takes_condition hp).bind
  intro c pre hc
  apply (takes_block hp).bind
  intro b pre' hb
  apply (Takes.after (spelled_keyword "else" (by decide)) (takes_block hp)).map
  intro otherwise pre'' hotherwise
  cases otherwise with
  | none =>
    cases hotherwise
    rw [List.append_nil]
    exact .conditional ht hc hb
  | some b' =>
    obtain ⟨t', tail, rfl, ht', hb'⟩ := hotherwise
    exact .conditionalElse ht hc hb ht' hb'

theorem takes_whileLoop {t : Token} (ht : t.Is .keyword "while") :
    Takes (whileLoop p t.line) fun s ts => s.Derives (t :: ts) := by
  apply (takes_condition hp).bind
  intro c pre hc
  apply (takes_block hp).map
  intro b pre' hb
  exact .whileLoop ht hc hb

theorem takes_forLoop {t : Token} (ht : t.Is .keyword "for") :
    Takes (forLoop p t.line) fun s ts => s.Derives (t :: ts) := by
  have semicolon := Takes.expect spelled_semicolon
  apply (Takes.expect spelled_lparen).bind
  rintro _ _ ⟨l, rfl, hl⟩
  apply (takes_simple hp.expression).bind
  intro initializer pre hinitializer
  apply semicolon.bind
  rintro _ _ ⟨first, rfl, hfirst⟩
  apply hp.expression.bind
  intro c pre' hc
  apply semicolon.bind
  rintro _ _ ⟨second, rfl, hsecond⟩
  apply (takes_simple hp.expression).bind
  intro iterator pre'' hiterator
  apply (Takes.expect spelled_rparen).bind
  rintro _ _ ⟨r, rfl, hr⟩
  apply (takes_block hp).map
  intro b body hb
  exact .forLoop ht hl hinitializer hfirst hc hsecond hiterator hr hb

theorem takes_function {t : Token} (ht : t.Is .keyword "function") :
    Takes (function p t.line) fun s ts => s.Derives (t :: ts) := by
  apply (Takes.name .function).bind
  rintro _ _ ⟨hf⟩
  apply takes_params.bind
  intro params pre hparams
  apply (takes_block hp).map
  intro b pre' hb
  have derived := Stmt.Derives.function ht hf hparams hb
  exact derived

theorem takes_returnValue {t : Token} (ht : t.Is .keyword "return") :
    Takes (returnValue p t.line) fun s ts => s.Derives (t :: ts) := by
  apply (Takes.guarded _ hp.expression).bind
  intro e pre he
  apply Takes.endSimple.map
  intro _ ending hending
  cases e with
  | none =>
    cases he
    exact .returnNothing ht hending
  | some e => exact .returnValue ht he hending

theorem takes_valueStatement {make : Expr → Stmt} {D : Stmt → List Token → Prop}
    (hmake : ∀ e ts ending, e.DerivesTop ts → Ending ending → D (make e) (ts ++ ending)) :
    Takes (valueStatement p make) D := by
  apply hp.expression.bind
  intro e pre he
  apply Takes.endSimple.map
  intro _ ending hending
  exact hmake e pre ending he hending

omit hp in
theorem takes_importModule {t : Token} (ht : t.Is .keyword "import") :
    Takes (importModule t.line) fun s ts => s.Derives (t :: ts) := by
  apply (Takes.name .module).bind
  rintro _ _ ⟨hm⟩
  apply (Takes.expect spelled_semicolon).map
  rintro _ _ ⟨semicolon, rfl, hsemicolon⟩
  exact .importModule ht hm hsemicolon

theorem takes_catchClause : Takes (catchClause p) fun clause ts => ∃ l x r tail,
    ts = l :: x :: r :: tail ∧ l.Is .lparen "(" ∧ x.kind = .identifier ∧ x.text = clause.1 ∧
      r.Is .rparen ")" ∧ Block.Derives clause.2 tail := by
  apply (Takes.expect spelled_lparen).bind
  rintro _ _ ⟨l, rfl, hl⟩
  apply (Takes.name .exceptionVariable).bind
  rintro _ _ ⟨hx⟩
  apply (Takes.expect spelled_rparen).bind
  rintro _ _ ⟨r, rfl, hr⟩
  apply (takes_block hp).map
  intro b pre hb
  exact ⟨l, _, r, pre, rfl, hl, hx, rfl, hr, hb⟩

theorem takes_handlers : Takes (handlers p) Handlers.Derives := by
  have final := Takes.after (spelled_keyword "finally" (by decide)) (takes_block hp)
  apply (Takes.after (spelled_keyword "catch" (by decide)) (takes_catchClause hp)).bind
  intro found pre hfound
  cases found with
  | none =>
    cases hfound
    apply final.bind
    intro found pre hfound
    cases found with
    | none => exact .fail _
    | some b =>
      obtain ⟨t, tail, rfl, ht, hb⟩ := hfound
      apply Takes.pure
      rw [List.append_nil]
      exact .finallyOnly ht hb
  | some clause =>
    obtain ⟨t, _, rfl, ht, l, x, r, tail, rfl, hl, hx, hname, hr, hb⟩ := hfound
    obtain ⟨name, b⟩ := clause
    cases hname
    apply final.bind
    intro found pre hfound
    cases found with
    | none =>
      cases hfound
      apply Takes.pure
      rw [List.append_nil, List.append_nil]
      exact .catchOnly ht hl hx hr hb
    | some b' =>
      obtain ⟨t', tail', rfl, ht', hb'⟩ := hfound
      apply Takes.pure
      rw [List.append_nil]
      exact .catchFinally ht hl hx hr hb ht' hb'

theorem takes_tryBlock {t : Token} (ht : t.Is .keyword "try") :
    Takes (tryBlock p t.line) fun s ts => s.Derives (t :: ts) := by
  apply (takes_block hp).bind
  intro b pre hb
  apply (takes_handlers hp).map
  intro handlers pre' hhandlers
  exact .tryBlock ht hb hhandlers

/-- The tokens in front of what is read here are those of the modifiers. -/
theorem takes_method (a : Access) (flags : Bool × Bool) (line : Nat) :
    Takes (method p a flags line) fun m ts => ∀ word modifier t, AccessWord a word →
      Modifier flags.1 flags.2 modifier → t.Is .keyword "function" →
      line = firstLine (word ++ (modifier ++ [t])) →
      m.Derives (word ++ (modifier ++ t :: ts)) := by
  apply (Takes.name .method).bind
  rintro _ _ ⟨hm⟩
  apply takes_params.bind
  intro params pre hparams
  apply (takes_block hp).map
  intro b pre' hb word modifier t hword hmodifier ht hline
  rw [hline]
  have derived := Member.Derives.method hword hmodifier ht hm hparams hb
  exact derived

theorem takes_field (a : Access) (flags : Bool × Bool) (line : Nat) :
    Takes (field p a line) fun m ts => ∃ x tail, ts = x :: tail ∧
      ∀ word modifier, AccessWord a word → Modifier flags.1 flags.2 modifier →
        line = firstLine (word ++ (modifier ++ [x])) → m.Derives (word ++ (modifier ++ ts)) := by
  apply (Takes.name .field).bind
  rintro _ _ ⟨hx⟩
  apply (takes_assigned? hp.expression).bind
  intro value pre hvalue
  apply (Takes.expect spelled_semicolon).map
  rintro _ _ ⟨semicolon, rfl, hsemicolon⟩
  refine ⟨_, _, rfl, ?_⟩
  intro word modifier hword hmodifier hline
  rw [hline]
  cases value with
  | none =>
    cases hvalue
    exact .field hword hmodifier hx hsemicolon
  | some e =>
    obtain ⟨eq, tail, rfl, heq, he⟩ := hvalue
    exact .fieldValue hword hmodifier hx heq he hsemicolon

theorem takes_member : Takes (member p) Member.Derives := by
  apply Takes.currentLine
  intro line
  apply takes_access?.bind
  intro a word ha
  have hword := accessWord_of_maybe ha
  apply takes_modifiers.bind
  intro flags modifier hmodifier
  apply (Takes.after (spelled_keyword "function" (by decide)) (takes_method hp _ flags line)).bind
  intro found pre hfound
  cases found with
  | none =>
    cases hfound
    apply (takes_field hp _ flags line).mono
    rintro m _ ⟨x, tail, rfl, hm⟩
    constructor
    · simp
    · intro hline
      exact hm word modifier hword hmodifier (hline.trans (firstLine_middle word modifier x tail))
  | some m =>
    obtain ⟨t, tail, rfl, ht, hm⟩ := hfound
    apply Takes.pure
    rw [List.append_nil]
    constructor
    · simp
    · intro hline
      exact hm word modifier t hword hmodifier ht
        (hline.trans (firstLine_middle word modifier t tail))

theorem takes_classDecl {t : Token} (ht : t.Is .keyword "class") :
    Takes (classDecl p t.line) fun s ts => s.Derives (t :: ts) := by
  apply (Takes.name .className).bind
  rintro _ _ ⟨hc⟩
  apply (Takes.after (spelled_keyword "extends" (by decide)) (.name .baseClass)).bind
  intro base pre hbase
  have base : Extends base pre := by
    cases base with
    | none =>
      cases hbase
      exact .absent
    | some c =>
      obtain ⟨t', _, rfl, ht', ⟨hb⟩⟩ := hbase
      exact .present ht' hb
  have names := Takes.commaSeparated (Takes.name .interface)
  apply (Takes.after (spelled_keyword "implements" (by decide)) names).bind
  intro found pre' hfound
  have interfaces : Implements (found.getD []) pre' := by
    cases found with
    | none =>
      cases hfound
      exact .absent
    | some is =>
      obtain ⟨t', tail, rfl, ht', his⟩ := hfound
      exact .present ht' his
  apply (takes_inBraces (takes_member hp)).map
  rintro members _ ⟨l, ts, r, rfl, hl, hmembers, hr⟩
  have derived := Stmt.Derives.classDecl ht hc base interfaces hl hmembers hr
  exact derived

omit hp in
theorem takes_signature : Takes signature Signature.Derives := by
  apply Takes.currentLine
  intro line
  apply takes_access?.bind
  intro a word ha
  have hword := accessWord_of_maybe ha
  apply (Takes.expect (spelled_keyword "function" (by decide))).bind
  rintro _ _ ⟨t, rfl, ht⟩
  apply (Takes.name .method).bind
  rintro _ _ ⟨hm⟩
  apply takes_params.bind
  intro params pre hparams
  apply Takes.endSimple.map
  intro _ ending hending
  constructor
  · simp
  · intro hline
    rw [hline.trans (firstLine_middle word [] t _)]
    have derived := Signature.Derives.mk hword ht hm hparams hending
    exact derived

omit hp in
theorem takes_interfaceDecl {t : Token} (ht : t.Is .keyword "interface") :
    Takes (interfaceDecl t.line) fun s ts => s.Derives (t :: ts) := by
  apply (Takes.name .interface).bind
  rintro _ _ ⟨hi⟩
  apply (takes_inBraces takes_signature).map
  rintro methods _ ⟨l, ts, r, rfl, hl, hmethods, hr⟩
  exact .interfaceDecl ht hi hl hmethods hr

omit hp in
theorem takes_lone {t : Token} {s : Stmt} (h : ∀ ending, Ending ending → s.Derives (t :: ending)) :
    Takes (lone s) fun s ts => s.Derives (t :: ts) := by
  apply Takes.endSimple.map
  intro _ ending hending
  exact h ending hending

theorem takes_simpleStatement : Takes (simpleStatement p) Stmt.Derives := by
  apply (takes_simple hp.expression).bind
  intro s pre hs
  apply Takes.endSimple.map
  intro _ ending hending
  exact .simple hs hending

theorem takes_afterStatementWord? {t : Token} {r : Parser Stmt} (ht : t.kind = .keyword)
    (h : afterStatementWord? p t = some r) : Takes r fun s ts => s.Derives (t :: ts) := by
  unfold afterStatementWord? at h
  split at h
  all_goals rename_i htext
  all_goals cases h
  · exact takes_classDecl hp ⟨ht, htext⟩
  · exact takes_interfaceDecl ⟨ht, htext⟩
  · exact takes_function hp ⟨ht, htext⟩
  · exact takes_conditional hp ⟨ht, htext⟩
  · exact takes_whileLoop hp ⟨ht, htext⟩
  · exact takes_forLoop hp ⟨ht, htext⟩
  · exact takes_returnValue hp ⟨ht, htext⟩
  · exact takes_tryBlock hp ⟨ht, htext⟩
  · apply takes_valueStatement hp
    intro e ts ending he hending
    exact .throwValue ⟨ht, htext⟩ he hending
  · exact takes_importModule ⟨ht, htext⟩
  · exact takes_lone fun _ hending => .breakLoop ⟨ht, htext⟩ hending
  · exact takes_lone fun _ hending => .continueLoop ⟨ht, htext⟩ hending

theorem takesAt_keywordStatement {t : Token} (ht : t.kind = .keyword) (ts : List Token) :
    TakesAt (t :: ts) (keywordStatement p t) Stmt.Derives := by
  apply TakesAt.pastFirst
  · intro r hr
    exact takes_afterStatementWord? hp ht hr
  · intro _
    by_cases word : expressionWords.contains t.text = true
    · rw [if_pos word]
      exact takes_simpleStatement hp (t :: ts)
    · rw [if_neg word]
      exact .fail _

/-- After `print` comes a token that does not make it a name like any other, and the value starts
with that token. -/
theorem takesAt_print {t : Token} {ts : List Token} (h : startsPrint t ts.head? = true) :
    TakesAt (t :: ts) (do skip; valueStatement p (.print · t.line)) Stmt.Derives := by
  obtain ⟨word, next⟩ := Bool.and_eq_true_iff.mp h
  obtain ⟨hkind, htext⟩ := Bool.and_eq_true_iff.mp word
  have ht : t.Is .identifier "print" := ⟨of_decide_eq_true hkind, eq_of_beq htext⟩
  apply TakesAt.skip
  apply (hp.expression ts).isPrefix.bind
  rintro e pre ⟨he, hpre⟩
  apply Takes.endSimple.map
  intro _ ending hending
  cases pre with
  | nil => exact absurd rfl he.ne_nil
  | cons first pre =>
    obtain ⟨rest, rfl⟩ := hpre
    have apart : first.text ∉ ["(", "=", "."] := by
      simpa [continuesName, and_assoc] using next
    exact .print ht apart he hending

theorem takes_statementStep : Takes (statementStep p) Stmt.Derives := by
  intro ts
  cases ts with
  | nil =>
    intro _ s rest hok
    cases hok
  | cons t ts =>
    by_cases keyword : t.kind = .keyword
    · rw [TakesAt, statementStep_of_keyword keyword rfl]
      exact takesAt_keywordStatement hp keyword ts
    · by_cases name : t.kind = .identifier
      · rw [TakesAt, statementStep_of_name name]
        by_cases print : startsPrint t ts.head? = true
        · rw [if_pos print]
          exact takesAt_print hp print
        · rw [if_neg print]
          exact takes_simpleStatement hp (t :: ts)
      · rw [TakesAt, statementStep_of_symbol keyword name rfl]
        exact takes_simpleStatement hp (t :: ts)

end Statements

theorem takes_statement (depth : Nat) : Takes (statement depth) Stmt.Derives := by
  induction depth with
  | zero =>
    intro ts _ s rest hok
    cases hok
  | succ depth ih => exact takes_statementStep ⟨takes_expression depth, ih⟩

theorem takes_program (depth : Nat) : Takes (program depth) Program.Derives := by
  apply Takes.skipSeparators.bind
  intro _ semicolons hsemicolons
  apply (Takes.many (Takes.guarded _ (takes_separated (takes_statement depth)))).map
  intro ss pre hss
  exact .mk hsemicolons (.of_sequence hss)

/-- A repetition that declines only at the end of the tokens goes on to it: by induction on its
bound, which the tokens that are left do not exceed. -/
theorem nothing_left_of_repeated {α : Type} {step : α → Parser (Option α)}
    (advances : ∀ a, Advances (step a))
    (declines : ∀ a ts rest, step a ts = .ok (none, rest) → rest = []) {a b : α}
    {ts rest : List Token} (h : repeated step a ts = .ok (b, rest)) : rest = [] := by
  have rounds (bound : List Token) : ∀ a ts, ts.length ≤ bound.length →
      iterate step bound a ts = .ok (b, rest) → rest = [] := by
    induction bound with
    | nil =>
      intro a ts short hok
      cases hok
      exact List.length_eq_zero_iff.mp (Nat.le_zero.mp short)
    | cons _ bound ih =>
      intro a ts short hok
      obtain ⟨found, mid, hstep, hok⟩ := bind_ok hok
      cases found with
      | none =>
        cases hok
        exact declines _ ts rest hstep
      | some c =>
        have shorter := advances a ts c mid hstep
        rw [List.length_cons] at short
        exact ih c mid (by omega) hok
  exact rounds ts a ts (Nat.le_refl _) h

/-- A program ends where the tokens do. -/
theorem nothing_left_of_program {depth : Nat} {ts rest : List Token} {p : Program}
    (h : program depth ts = .ok (p, rest)) : rest = [] := by
  obtain ⟨_, mid, _, h⟩ := bind_ok h
  obtain ⟨ss, rest', hmany, h⟩ := bind_ok h
  cases h
  refine nothing_left_of_repeated ?_ ?_ hmany
  · intro as
    apply advances_oneMore
    apply advances_whenNext
    intro _ _
    exact consumes_separated (alike_statement (Nat.le_refl depth)).2
  · intro as ts rest hok
    obtain ⟨found, mid, hitem, hok⟩ := bind_ok hok
    cases found with
    | some s => cases hok
    | none =>
      cases hok
      cases ts with
      | nil =>
        cases hitem
        rfl
      | cons t ts =>
        -- with a token left there is no way to decline
        obtain ⟨next, _, hpeek, hitem⟩ := bind_ok hitem
        cases hpeek
        obtain ⟨s, _, _, hitem⟩ := bind_ok hitem
        cases hitem

/-- Tokens as the scanner gives them, when they are parsed, derive the tree. -/
theorem derives_of_parseTokens {ts : List Token} (lexical : Lexical ts) {depth : Nat} {p : Program}
    (h : parseTokens depth ts = .ok p) : p.Derives ts := by
  rw [parseTokens] at h
  cases hrun : program depth ts with
  | error e =>
    rw [hrun] at h
    cases h
  | ok r =>
    obtain ⟨p', rest⟩ := r
    rw [hrun] at h
    cases h
    obtain ⟨pre, htaken, derives⟩ := takes_program depth ts lexical p rest hrun
    rw [nothing_left_of_program hrun, List.append_nil] at htaken
    rwa [htaken]

end Parser

open ClassScript.Parser

/-- The parser accepts only the grammar: when the tokens of a source are parsed, all of them, in
their order, derive the tree, lines included. -/
theorem parse_derives {source : String} {ts : List Token} (hts : tokenize source = .ok ts)
    {depth : Nat} {p : Program} (h : parseTokens depth ts = .ok p) : p.Derives ts :=
  derives_of_parseTokens (lexical_of_tokenize hts) h

private def classAndPrint : List Token :=
  [⟨.keyword, "class", 1, 1⟩, ⟨.identifier, "C", 1, 7⟩, ⟨.lbrace, "\x7b", 1, 9⟩,
    ⟨.keyword, "override", 1, 11⟩, ⟨.identifier, "x", 1, 20⟩, ⟨.separator, ";", 1, 21⟩,
    ⟨.rbrace, "\x7d", 1, 23⟩, ⟨.separator, ";", 1, 24⟩, ⟨.separator, ";", 1, 25⟩,
    ⟨.identifier, "print", 2, 1⟩, ⟨.operator, "-", 2, 7⟩, ⟨.identifier, "a", 2, 8⟩,
    ⟨.dot, ".", 2, 9⟩, ⟨.identifier, "b", 2, 10⟩, ⟨.operator, "*", 2, 12⟩,
    ⟨.identifier, "c", 2, 14⟩]

/-- A class with a field, semicolons that stand alone, and operators of three ranks after `print`,
with no semicolon at the end. -/
theorem parse_derives_class :
    tokenize "class C \x7b override x; \x7d;;\nprint -a.b * c" = .ok classAndPrint ∧
    Program.Derives ⟨[.classDecl "C" none [] [.field "x" .privateAccess none 1] 1,
      .print (.binary .mul (.unary .minus (.member (.var "a" 2) "b" 2) 2) (.var "c" 2) 2) 2]⟩
      classAndPrint := by
  have tokens : tokenize "class C \x7b override x; \x7d;;\nprint -a.b * c" = .ok classAndPrint :=
    tokenize_eq_ok_iff.mpr (by decide +kernel)
  have parsed : parseTokens 9 classAndPrint = .ok ⟨[
      .classDecl "C" none [] [.field "x" .privateAccess none 1] 1,
      .print (.binary .mul (.unary .minus (.member (.var "a" 2) "b" 2) 2) (.var "c" 2) 2) 2]⟩ :=
    rfl
  exact ⟨tokens, parse_derives tokens parsed⟩

end ClassScript
