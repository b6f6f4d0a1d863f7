import ClassScript.Grammar
import ClassScript.Syntax.SameTree

/-!
# The parser does not look at places

A token has a place, and the parser puts the lines of tokens into the tree. Nothing else becomes of
them: on tokens whose places have been taken away, every parser of the grammar reads the same, and
gives the same tree without its lines or the same error.
-/

namespace ClassScript

namespace Token

/-- A token apart from its place. -/
def face (t : Token) : TokenKind × String :=
  (t.kind, t.text)

/-- The token with its place taken away. -/
def forgetPlace (t : Token) : Token :=
  { t with line := 0, column := 0 }

theorem map_forgetPlace {ts us : List Token} (h : ts.map face = us.map face) :
    ts.map forgetPlace = us.map forgetPlace := by
  have same (ts : List Token) :
      ts.map forgetPlace = (ts.map face).map fun p => ⟨p.1, p.2, 0, 0⟩ := by
    rw [List.map_map]
    rfl
  rw [same, same, h]

end Token

def ParseError.forgetPlaces (e : ParseError) : ParseError :=
  ⟨e.expected, e.rest.map Token.forgetPlace⟩

def ParseFailure.forgetPlaces : ParseFailure → ParseFailure
  | unexpected e => .unexpected e.forgetPlaces
  | tooDeep => .tooDeep

namespace Parser

variable {α β γ δ : Type}

/-- What a parser ends with, without places; `f` takes the lines out of a result. -/
def forgetting (f : α → β) :
    Except ParseFailure (α × List Token) → Except ParseFailure (β × List Token)
  | .ok (a, rest) => .ok (f a, rest.map Token.forgetPlace)
  | .error e => .error e.forgetPlaces

/-- Where `p` reads tokens with their places, `q` reads the same tokens without them. -/
def Forgets (f : α → β) (p : Parser α) (q : Parser β) : Prop :=
  ∀ ts, q (ts.map Token.forgetPlace) = forgetting f (p ts)

namespace Forgets

variable {f : α → β} {g : γ → δ} {p : Parser α} {q : Parser β}

theorem pure {a : α} {b : β} (h : f a = b) : Forgets f (Pure.pure a) (Pure.pure b) := by
  intro ts
  rw [← h]
  rfl

theorem bind {k : α → Parser γ} {l : β → Parser δ} (hp : Forgets f p q)
    (hk : ∀ a, Forgets g (k a) (l (f a))) : Forgets g (p >>= k) (q >>= l) := by
  intro ts
  rw [bind_apply, bind_apply, hp ts]
  rcases p ts with e | ⟨a, rest⟩
  · rfl
  · exact hk a rest

theorem map {k : α → γ} {l : β → δ} (hp : Forgets f p q) (h : ∀ a, g (k a) = l (f a)) :
    Forgets g (p >>= fun a => Pure.pure (k a)) (q >>= fun b => Pure.pure (l b)) :=
  hp.bind fun a => .pure (h a)

theorem fail (e : Expectation) : Forgets f (Parser.fail e) (Parser.fail e) :=
  fun _ => rfl

theorem tooDeep : Forgets f Parser.tooDeep Parser.tooDeep :=
  fun _ => rfl

theorem peek : Forgets (Option.map Token.forgetPlace) Parser.peek Parser.peek := by
  rintro (_ | ⟨t, ts⟩) <;> rfl

theorem peekSecond :
    Forgets (Option.map Token.forgetPlace) Parser.peekSecond Parser.peekSecond := by
  rintro (_ | ⟨t, _ | ⟨u, ts⟩⟩) <;> rfl

theorem skip : Forgets id Parser.skip Parser.skip := by
  rintro (_ | ⟨t, ts⟩) <;> rfl

theorem currentLine : Forgets (fun _ => 0) Parser.currentLine Parser.currentLine := by
  rintro (_ | ⟨t, ts⟩) <;> rfl

theorem check (text : String) : Forgets id (Parser.check text) (Parser.check text) := by
  rintro (_ | ⟨t, ts⟩) <;> rfl

theorem accept (text : String) : Forgets id (Parser.accept text) (Parser.accept text) := by
  refine (check text).bind fun found => ?_
  cases found with
  | true => exact skip.bind fun _ => .pure rfl
  | false => exact .pure rfl

theorem expect (text : String) : Forgets id (Parser.expect text) (Parser.expect text) := by
  refine (check text).bind fun found => ?_
  cases found with
  | true => exact skip
  | false => exact .fail _

theorem name (role : NameRole) : Forgets id (Parser.name role) (Parser.name role) := by
  refine peek.bind fun next => ?_
  cases next with
  | none => exact .fail _
  | some t =>
    by_cases h : t.kind = .identifier
    · simp only [Option.map_some, if_pos h, if_pos (show t.forgetPlace.kind = .identifier from h)]
      exact skip.bind fun _ => .pure rfl
    · simp only [Option.map_some, if_neg h,
        if_neg (show ¬t.forgetPlace.kind = .identifier from h)]
      exact .fail _

/-- What is wanted must not hang on the place. -/
theorem optionally {wanted : Token → Option γ} {wanted' : Token → Option δ}
    {p : Token → γ → Parser α} {q : Token → δ → Parser β}
    (hwanted : ∀ t, wanted' t.forgetPlace = (wanted t).map g)
    (h : ∀ t c, Forgets f (p t c) (q t.forgetPlace (g c))) :
    Forgets (Option.map f) (Parser.optionally wanted p) (Parser.optionally wanted' q) := by
  refine peek.bind fun next => ?_
  cases next with
  | none => exact .pure rfl
  | some t =>
    simp only [Option.map_some, hwanted]
    cases wanted t with
    | none => exact .pure rfl
    | some c => exact (h t c).map fun _ => rfl

theorem whenNext {test : Token → Bool} {p : Token → Parser α} {q : Token → Parser β}
    (htest : ∀ t, test t.forgetPlace = test t) (h : ∀ t, Forgets f (p t) (q t.forgetPlace)) :
    Forgets (Option.map f) (Parser.whenNext test p) (Parser.whenNext test q) := by
  refine optionally (g := Token.forgetPlace) (fun t => ?_) fun t _ => h t
  cases ht : test t <;> simp [Option.guard, htest, ht]

theorem after (text : String) (h : Forgets f p q) :
    Forgets (Option.map f) (Parser.after text p) (Parser.after text q) :=
  whenNext (fun _ => rfl) fun _ => skip.bind fun _ => h

theorem pastFirst {rest? : Option (Parser α)} {rest?' : Option (Parser β)}
    (hrest : Option.Rel (Forgets f) rest? rest?') (h : Forgets f p q) :
    Forgets f (Parser.pastFirst rest? p) (Parser.pastFirst rest?' q) := by
  cases hrest with
  | some hrest => exact skip.bind fun _ => hrest
  | none => exact h

/-- By induction on the bound, which is the tokens that were left at the start. -/
theorem iterate {step : α → Parser (Option α)} {step' : β → Parser (Option β)}
    (h : ∀ a, Forgets (Option.map f) (step a) (step' (f a))) (bound : List Token) (a : α) :
    Forgets f (Parser.iterate step bound a)
      (Parser.iterate step' (bound.map Token.forgetPlace) (f a)) := by
  induction bound generalizing a with
  | nil => exact .pure rfl
  | cons t bound ih =>
    refine (h a).bind fun next => ?_
    cases next with
    | none => exact .pure rfl
    | some b => exact ih b

theorem repeated {step : α → Parser (Option α)} {step' : β → Parser (Option β)}
    (h : ∀ a, Forgets (Option.map f) (step a) (step' (f a))) (a : α) :
    Forgets f (Parser.repeated step a) (Parser.repeated step' (f a)) :=
  fun ts => iterate h ts a ts

theorem many {item : Parser (Option α)} {item' : Parser (Option β)}
    (h : Forgets (Option.map f) item item') :
    Forgets (List.map f) (Parser.many item) (Parser.many item') := by
  refine repeated (fun as => h.map fun a => ?_) []
  cases a <;> simp

theorem commaSeparated (h : Forgets f p q) :
    Forgets (List.map f) (Parser.commaSeparated p) (Parser.commaSeparated q) :=
  h.bind fun _ => (many (after "," h)).map fun _ => rfl

theorem listedItems (h : Forgets f p q) :
    Forgets (List.map f) (Parser.listedItems p) (Parser.listedItems q) := by
  refine (check ")").bind fun closed => ?_
  cases closed with
  | true => exact .pure rfl
  | false => exact commaSeparated h

theorem parenthesized (h : Forgets f p q) :
    Forgets (List.map f) (Parser.parenthesized p) (Parser.parenthesized q) :=
  (expect _).bind fun _ => (listedItems h).bind fun _ => (expect _).map fun _ => rfl

theorem unlessClosed (h : Forgets f p q) :
    Forgets (Option.map f) (Parser.unlessClosed p) (Parser.unlessClosed q) :=
  whenNext (fun _ => rfl) fun _ => h

theorem inBraces (h : Forgets f p q) :
    Forgets (List.map f) (Parser.inBraces p) (Parser.inBraces q) :=
  (expect _).bind fun _ => (many (unlessClosed h)).bind fun _ => (expect _).map fun _ => rfl

theorem skipSeparators : Forgets id Parser.skipSeparators Parser.skipSeparators :=
  (many (after ";" (f := id) (.pure rfl))).map fun _ => rfl

theorem endSimple : Forgets id Parser.endSimple Parser.endSimple :=
  (accept ";").map fun _ => rfl

end Forgets

section Expressions

variable {p q : Parser Expr} (h : Forgets Expr.forgetLines p q)

include h

theorem forgets_unary : Forgets Expr.forgetLines (unary p) (unary q) := by
  intro ts
  induction ts with
  | nil => exact h []
  | cons t ts ih =>
    have same : unaryOp? t.forgetPlace = unaryOp? t := rfl
    rw [List.map_cons, unary, unary, same]
    cases unaryOp? t with
    | none => exact h (t :: ts)
    | some op =>
      dsimp only
      rw [ih]
      rcases unary p ts with e | ⟨e, rest⟩ <;> rfl

theorem forgets_chain (level : Nat) : Forgets Expr.forgetLines (chain level p) (chain level q) := by
  refine h.bind fun first => .repeated (fun left => ?_) first
  refine .optionally (g := id) (fun t => ?_) fun t op =>
    Forgets.skip.bind fun _ => h.map fun _ => rfl
  have same : operatorOf? level t.forgetPlace = operatorOf? level t := rfl
  rw [same, Option.map_id_apply]

theorem forgets_binary (levels : Nat) :
    Forgets Expr.forgetLines (binary p levels) (binary q levels) := by
  induction levels with
  | zero => exact h
  | succ levels ih => exact forgets_chain ih levels

theorem forgets_afterPoint (target : Expr) (line : Nat) :
    Forgets Expr.forgetLines (afterPoint p target line) (afterPoint q target.forgetLines 0) := by
  refine (Forgets.name _).bind fun member => ?_
  refine (Forgets.whenNext (fun _ => rfl) fun _ => .parenthesized h).bind fun args => ?_
  cases args with
  | none => exact .pure rfl
  | some args => exact .pure (by simp [Expr.forgetLinesAll_eq_map])

omit h in
theorem forgets_newObject (line : Nat) :
    Forgets Expr.forgetLines (newObject line) (newObject 0) :=
  (Forgets.name _).bind fun _ => (Forgets.after "(" (.expect ")")).map fun _ => rfl

theorem forgets_superCall (line : Nat) :
    Forgets Expr.forgetLines (superCall p line) (superCall q 0) := by
  refine (Forgets.expect _).bind fun _ => (Forgets.name _).bind fun method => ?_
  exact (Forgets.parenthesized h).map fun args => by simp [Expr.forgetLinesAll_eq_map]

theorem forgets_closing : Forgets Expr.forgetLines (closing p) (closing q) :=
  h.bind fun _ => (Forgets.expect _).map fun _ => rfl

theorem forgets_afterName (t : Token) :
    Forgets Expr.forgetLines (afterName p t) (afterName q t.forgetPlace) := by
  refine (Forgets.whenNext (fun _ => rfl) fun _ => .parenthesized h).bind fun args => ?_
  cases args with
  | none => exact .pure rfl
  | some args => exact .pure (by simp [Expr.forgetLinesAll_eq_map, Token.forgetPlace])

theorem forgets_afterKeyword? (t : Token) :
    Option.Rel (Forgets Expr.forgetLines) (afterKeyword? p t) (afterKeyword? q t.forgetPlace) := by
  have same : t.forgetPlace.text = t.text := rfl
  unfold afterKeyword?
  rw [same]
  split
  · exact .some (.pure rfl)
  · exact .some (.pure rfl)
  · exact .some (.pure rfl)
  · exact .some (.pure rfl)
  · exact .some (forgets_newObject _)
  · exact .some (forgets_superCall h _)
  · exact .none

theorem forgets_afterFirst? (t : Token) :
    Option.Rel (Forgets Expr.forgetLines) (afterFirst? p t) (afterFirst? q t.forgetPlace) := by
  have same : t.forgetPlace.kind = t.kind := rfl
  unfold afterFirst?
  rw [same]
  split
  · exact .some (.pure rfl)
  · exact .some (.pure rfl)
  · exact .some (forgets_afterName h t)
  · exact .some (forgets_closing h)
  · exact forgets_afterKeyword? h t
  · exact .none

theorem forgets_operand : Forgets Expr.forgetLines (operand p) (operand q) := by
  have primary : Forgets Expr.forgetLines (primary p) (primary q) := by
    refine Forgets.peek.bind fun next => ?_
    cases next with
    | none => exact .fail _
    | some t => exact .pastFirst (forgets_afterFirst? h t) (.fail _)
  refine primary.bind fun first => .repeated (fun target => ?_) first
  exact .whenNext (fun _ => rfl) fun dot =>
    Forgets.skip.bind fun _ => forgets_afterPoint h target dot.line

theorem forgets_expressionStep :
    Forgets Expr.forgetLines (expressionStep p) (expressionStep q) :=
  forgets_binary (forgets_unary (forgets_operand h)) _

end Expressions

theorem forgets_expression (depth : Nat) :
    Forgets Expr.forgetLines (expression depth) (expression depth) := by
  induction depth with
  | zero => exact .tooDeep
  | succ depth ih => exact forgets_expressionStep ih

theorem forgets_separated {p q : Parser Stmt} (h : Forgets Stmt.forgetLines p q) :
    Forgets Stmt.forgetLines (separated p) (separated q) :=
  h.bind fun _ => Forgets.skipSeparators.map fun _ => rfl

/-- The parsers one level further in, with and without places. -/
structure Inner.Forgets (p q : Inner) : Prop where
  expression : Parser.Forgets Expr.forgetLines p.expression q.expression
  statement : Parser.Forgets Stmt.forgetLines p.statement q.statement

section Statements

variable {p q : Inner} (h : p.Forgets q)

include h

theorem forgets_assigned? :
    Forgets (Option.map Expr.forgetLines) (assigned? p.expression) (assigned? q.expression) :=
  .whenNext (fun _ => rfl) fun _ => Forgets.skip.bind fun _ => h.expression

theorem forgets_afterExpression (e : Expr) (line : Nat) :
    Forgets Simple.forgetLines (afterExpression p.expression e line)
      (afterExpression q.expression e.forgetLines 0) := by
  cases e with
  | member target member memberLine =>
    refine (forgets_assigned? h).bind fun value => ?_
    cases value <;> exact .pure rfl
  | _ => exact .pure rfl

theorem forgets_simple :
    Forgets Simple.forgetLines (simple p.expression) (simple q.expression) := by
  have fromExpression : Forgets Simple.forgetLines (simpleFromExpression p.expression)
      (simpleFromExpression q.expression) :=
    Forgets.currentLine.bind fun line => h.expression.bind fun e => forgets_afterExpression h e line
  refine Forgets.peek.bind fun first => Forgets.peekSecond.bind fun second => ?_
  rcases first with _ | x
  · exact fromExpression
  rcases second with _ | eq
  · exact fromExpression
  by_cases assigns : x.kind = .identifier ∧ eq.kind = .assign
  · have assigns' : x.forgetPlace.kind = .identifier ∧ eq.forgetPlace.kind = .assign := assigns
    simp only [Option.map_some, if_pos assigns, if_pos assigns']
    exact Forgets.skip.bind fun _ => Forgets.skip.bind fun _ => h.expression.map fun _ => rfl
  · have assigns' : ¬(x.forgetPlace.kind = .identifier ∧ eq.forgetPlace.kind = .assign) := assigns
    simp only [Option.map_some, if_neg assigns, if_neg assigns']
    exact fromExpression

theorem forgets_block : Forgets Block.forgetLines (block p) (block q) := by
  have body : Forgets (List.map Stmt.forgetLines) (bodyStatements p) (bodyStatements q) :=
    Forgets.skipSeparators.bind fun _ =>
      (Forgets.many (.unlessClosed (forgets_separated h.statement))).bind fun _ =>
        (Forgets.expect _).map fun _ => rfl
  refine Forgets.currentLine.bind fun line => (Forgets.after _ body).bind fun statements => ?_
  cases statements with
  | some statements => exact .pure (by simp [Stmt.forgetLinesAll_eq_map])
  | none => exact h.statement.map fun _ => rfl

theorem forgets_condition : Forgets Expr.forgetLines (condition p) (condition q) :=
  (Forgets.expect _).bind fun _ => forgets_closing h.expression

theorem forgets_conditional (line : Nat) :
    Forgets Stmt.forgetLines (conditional p line) (conditional q 0) := by
  refine (forgets_condition h).bind fun c => (forgets_block h).bind fun thenBranch => ?_
  refine (Forgets.after _ (forgets_block h)).map fun elseBranch => ?_
  cases elseBranch <;> rfl

theorem forgets_whileLoop (line : Nat) :
    Forgets Stmt.forgetLines (whileLoop p line) (whileLoop q 0) :=
  (forgets_condition h).bind fun _ => (forgets_block h).map fun _ => rfl

theorem forgets_forLoop (line : Nat) :
    Forgets Stmt.forgetLines (forLoop p line) (forLoop q 0) := by
  refine (Forgets.expect _).bind fun _ => (forgets_simple h).bind fun _ => ?_
  refine (Forgets.expect _).bind fun _ => h.expression.bind fun _ => ?_
  refine (Forgets.expect _).bind fun _ => (forgets_simple h).bind fun _ => ?_
  exact (Forgets.expect _).bind fun _ => (forgets_block h).map fun _ => rfl

omit h in
theorem forgets_params : Forgets id params params := by
  have names := Forgets.parenthesized (Forgets.name .parameter)
  rwa [List.map_id_fun] at names

theorem forgets_function (line : Nat) :
    Forgets Stmt.forgetLines (function p line) (function q 0) :=
  (Forgets.name _).bind fun _ => forgets_params.bind fun _ => (forgets_block h).map fun _ => rfl

theorem forgets_returnValue (line : Nat) :
    Forgets Stmt.forgetLines (returnValue p line) (returnValue q 0) :=
  (Forgets.whenNext (fun _ => rfl) fun _ => h.expression).bind fun _ =>
    Forgets.endSimple.map fun _ => rfl

theorem forgets_valueStatement {make make' : Expr → Stmt}
    (hmake : ∀ e, (make e).forgetLines = make' e.forgetLines) :
    Forgets Stmt.forgetLines (valueStatement p make) (valueStatement q make') :=
  h.expression.bind fun e => Forgets.endSimple.map fun _ => hmake e

omit h in
theorem forgets_importModule (line : Nat) :
    Forgets Stmt.forgetLines (importModule line) (importModule 0) :=
  (Forgets.name _).bind fun _ => (Forgets.expect _).map fun _ => rfl

theorem forgets_handlers : Forgets Handlers.forgetLines (handlers p) (handlers q) := by
  have clause : Forgets (Prod.map id Block.forgetLines) (catchClause p) (catchClause q) :=
    (Forgets.expect _).bind fun _ => (Forgets.name _).bind fun _ =>
      (Forgets.expect _).bind fun _ => (forgets_block h).map fun _ => rfl
  have final := Forgets.after "finally" (forgets_block h)
  refine (Forgets.after _ clause).bind fun clause => ?_
  cases clause with
  | some clause =>
    refine final.bind fun f => ?_
    cases f <;> exact .pure rfl
  | none =>
    refine final.bind fun f => ?_
    cases f with
    | some f => exact .pure rfl
    | none => exact .fail _

theorem forgets_tryBlock (line : Nat) :
    Forgets Stmt.forgetLines (tryBlock p line) (tryBlock q 0) :=
  (forgets_block h).bind fun _ => (forgets_handlers h).map fun _ => rfl

omit h in
theorem forgets_access? : Forgets id access? access? := by
  have read : Forgets (Option.map id) access? access? := by
    refine .optionally (g := id) (fun t => ?_) fun _ _ => Forgets.skip.map fun _ => rfl
    exact (Option.map_id_apply).symm
  rwa [Option.map_id_fun] at read

omit h in
theorem forgets_modifiers : Forgets id modifiers modifiers := by
  refine (Forgets.accept _).bind fun isVirtual => ?_
  cases isVirtual with
  | true => exact .pure rfl
  | false => exact (Forgets.accept _).map fun _ => rfl

theorem forgets_method (access : Access) (flags : Bool × Bool) (line : Nat) :
    Forgets Member.forgetLines (method p access flags line) (method q access flags 0) :=
  (Forgets.name _).bind fun _ => forgets_params.bind fun _ => (forgets_block h).map fun _ => rfl

theorem forgets_field (access : Access) (line : Nat) :
    Forgets Member.forgetLines (field p access line) (field q access 0) :=
  (Forgets.name _).bind fun _ => (forgets_assigned? h).bind fun _ =>
    (Forgets.expect _).map fun _ => rfl

theorem forgets_member : Forgets Member.forgetLines (member p) (member q) := by
  refine Forgets.currentLine.bind fun line => forgets_access?.bind fun word => ?_
  refine forgets_modifiers.bind fun flags => ?_
  refine (Forgets.after _ (forgets_method h _ flags line)).bind fun m => ?_
  cases m with
  | some m => exact .pure rfl
  | none => exact forgets_field h _ line

theorem forgets_classDecl (line : Nat) :
    Forgets Stmt.forgetLines (classDecl p line) (classDecl q 0) := by
  refine (Forgets.name _).bind fun c => (Forgets.after _ (.name _)).bind fun base => ?_
  refine (Forgets.after _ (.commaSeparated (.name _))).bind fun interfaces => ?_
  refine (Forgets.inBraces (forgets_member h)).map fun members => ?_
  simp [Member.forgetLinesAll_eq_map]

omit h in
theorem forgets_signature : Forgets Signature.forgetLines signature signature := by
  refine Forgets.currentLine.bind fun line => forgets_access?.bind fun _ => ?_
  refine (Forgets.expect _).bind fun _ => (Forgets.name _).bind fun m => ?_
  exact forgets_params.bind fun ps => Forgets.endSimple.map fun _ => rfl

omit h in
theorem forgets_interfaceDecl (line : Nat) :
    Forgets Stmt.forgetLines (interfaceDecl line) (interfaceDecl 0) :=
  (Forgets.name _).bind fun _ => (Forgets.inBraces forgets_signature).map fun _ => rfl

omit h in
theorem forgets_lone (s : Stmt) : Forgets Stmt.forgetLines (lone s) (lone s.forgetLines) :=
  Forgets.endSimple.map fun _ => rfl

theorem forgets_simpleStatement :
    Forgets Stmt.forgetLines (simpleStatement p) (simpleStatement q) :=
  (forgets_simple h).bind fun _ => Forgets.endSimple.map fun _ => rfl

theorem forgets_afterStatementWord? (t : Token) :
    Option.Rel (Forgets Stmt.forgetLines) (afterStatementWord? p t)
      (afterStatementWord? q t.forgetPlace) := by
  have same : t.forgetPlace.text = t.text := rfl
  unfold afterStatementWord?
  rw [same]
  split
  · exact .some (forgets_classDecl h _)
  · exact .some (forgets_interfaceDecl _)
  · exact .some (forgets_function h _)
  · exact .some (forgets_conditional h _)
  · exact .some (forgets_whileLoop h _)
  · exact .some (forgets_forLoop h _)
  · exact .some (forgets_returnValue h _)
  · exact .some (forgets_tryBlock h _)
  · exact .some (forgets_valueStatement h fun _ => rfl)
  · exact .some (forgets_importModule _)
  · exact .some (forgets_lone (.breakLoop t.line))
  · exact .some (forgets_lone (.continueLoop t.line))
  · exact .none

theorem forgets_keywordStatement (t : Token) :
    Forgets Stmt.forgetLines (keywordStatement p t) (keywordStatement q t.forgetPlace) := by
  refine .pastFirst (forgets_afterStatementWord? h t) ?_
  have same : t.forgetPlace.text = t.text := rfl
  rw [same]
  split
  · exact forgets_simpleStatement h
  · exact .fail _

theorem forgets_statementStep :
    Forgets Stmt.forgetLines (statementStep p) (statementStep q) := by
  refine Forgets.peek.bind fun first => Forgets.peekSecond.bind fun second => ?_
  rcases first with _ | t
  · exact .fail _
  have keyword : t.forgetPlace.kind = t.kind := rfl
  have print : startsPrint t.forgetPlace (second.map Token.forgetPlace) = startsPrint t second := by
    cases second <;> rfl
  simp only [Option.map_some, keyword, print]
  split
  · exact forgets_keywordStatement h t
  · split
    · exact Forgets.skip.bind fun _ => forgets_valueStatement h fun _ => rfl
    · exact forgets_simpleStatement h

end Statements

theorem forgets_statement (depth : Nat) :
    Forgets Stmt.forgetLines (statement depth) (statement depth) := by
  induction depth with
  | zero => exact .tooDeep
  | succ depth ih => exact forgets_statementStep ⟨forgets_expression depth, ih⟩

theorem forgets_program (depth : Nat) :
    Forgets Program.forgetLines (program depth) (program depth) := by
  have separated := forgets_separated (forgets_statement depth)
  refine Forgets.skipSeparators.bind fun _ => ?_
  refine (Forgets.many (.whenNext (fun _ => rfl) fun _ => separated)).map fun statements => ?_
  rw [Program.forgetLines, Stmt.forgetLinesAll_eq_map]

end Parser

/-- The tree or the error of tokens without places. -/
def forgetParse : Except ParseFailure Program → Except ParseFailure Program
  | .ok p => .ok p.forgetLines
  | .error e => .error e.forgetPlaces

theorem parseTokens_forgetPlace (depth : Nat) (ts : List Token) :
    parseTokens depth (ts.map Token.forgetPlace) = forgetParse (parseTokens depth ts) := by
  rw [parseTokens, parseTokens, Parser.forgets_program depth ts]
  rcases Parser.program depth ts with e | ⟨p, rest⟩ <;> rfl

/-- Trees that differ in lines alone, errors that differ in places alone, or nesting that is too
deep on both sides. -/
inductive ParseAlike : Except ParseFailure Program → Except ParseFailure Program → Prop
  | trees {p p' : Program} (h : p.forgetLines = p'.forgetLines) : ParseAlike (.ok p) (.ok p')
  | errors {e e' : ParseError} (h : e.forgetPlaces = e'.forgetPlaces) :
    ParseAlike (.error (.unexpected e)) (.error (.unexpected e'))
  | tooDeep : ParseAlike (.error .tooDeep) (.error .tooDeep)

theorem parseAlike_of_forgetParse {r r' : Except ParseFailure Program}
    (h : forgetParse r = forgetParse r') : ParseAlike r r' := by
  rcases r with (e | _) | p <;> rcases r' with (e' | _) | p'
  case error.unexpected.error.unexpected =>
    exact .errors (ParseFailure.unexpected.inj (Except.error.inj h))
  case error.tooDeep.error.tooDeep => exact .tooDeep
  case ok.ok => exact .trees (Except.ok.inj h)
  all_goals cases h

/-- Tokens that differ in places alone are parsed alike. -/
theorem parseAlike_of_faces {ts us : List Token} (h : ts.map Token.face = us.map Token.face)
    (depth : Nat) : ParseAlike (parseTokens depth ts) (parseTokens depth us) := by
  apply parseAlike_of_forgetParse
  rw [← parseTokens_forgetPlace, ← parseTokens_forgetPlace, Token.map_forgetPlace h]

end ClassScript
