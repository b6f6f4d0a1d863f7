import ClassScript.Proofs.Inversion

/-!
# Reading expressions back

A left operand may be a chain of operators of the same level, and the target of a member access may
be a chain of accesses: the parser builds both from the left, in a loop. So what is shown of an
expression is that the loop may go on from it. The rank of an expression says which loop that is.
-/

namespace ClassScript

/-- Whether the token opens a list of arguments. -/
def Token.opens (t : Token) : Bool :=
  t.isText "(" || t.kind == .lparen

/-- Whether an expression of the given rank ends before the token. -/
def Token.stops (rank : Nat) (t : Token) : Bool :=
  !t.opens && !t.isText "." && (Parser.binaryOp? t).all fun op => rank ≤ op.level + 1

theorem Token.stops_le {rank rank' : Nat} (le : rank ≤ rank') {t : Token}
    (h : t.stops rank' = true) : t.stops rank = true := by
  simp only [Token.stops, Bool.and_eq_true, Option.all_eq_true_iff_get, decide_eq_true_eq] at h ⊢
  exact ⟨h.1, fun hop => Nat.le_trans le (h.2 hop)⟩

namespace Parser

theorem allowing_mono {test test' : Token → Bool} (h : ∀ t, test t = true → test' t = true)
    (next : Option Token) (hnext : allowing test next) : allowing test' next := by
  cases next with
  | none => rfl
  | some t => exact h t hnext

theorem stops_opens {rank : Nat} (next : Option Token) (h : allowing (Token.stops rank) next) :
    allowing (!·.opens) next :=
  allowing_mono (fun _ ht => (Bool.and_eq_true_iff.mp (Bool.and_eq_true_iff.mp ht).1).1) next h

theorem stops_point {rank : Nat} (next : Option Token) (h : allowing (Token.stops rank) next) :
    allowing (!·.isText ".") next :=
  allowing_mono (fun _ ht => (Bool.and_eq_true_iff.mp (Bool.and_eq_true_iff.mp ht).1).2) next h

/-- No operator of a level follows what ends at that level. -/
theorem stops_operator {level : Nat} (next : Option Token)
    (h : allowing (Token.stops (level + 2)) next) : next.bind (operatorOf? level) = none := by
  cases next with
  | none => rfl
  | some t =>
    have hop := (Bool.and_eq_true_iff.mp h).2
    rw [Option.bind_some, operatorOf?, Option.filter_eq_none_iff]
    intro op ht
    rw [Option.mem_def.mp ht] at hop
    simp only [Option.all_some, decide_eq_true_eq] at hop ⊢
    omega

/-- Operands with their prefix operators. -/
def prefixed : Parser Expr := unary (operand wholeExpression)

/-- The parser for expressions of the given rank. -/
def ranked : Nat → Parser Expr
  | 0 => operand wholeExpression
  | levels + 1 => binary prefixed levels

theorem ranked_levels : ranked (BinaryOp.levels + 1) = wholeExpression :=
  wholeExpression_eq.symm

/-- `ts` is read as `e` by the parser for the rank. Where that parser goes on from what it has read,
with member accesses or with operators, it may go on from `e`. -/
def Grows (e : Expr) (ts : List Token) : Nat → Prop
  | 0 => (∃ t tail, ts = t :: tail ∧ unaryOp? t = none) ∧
    ∀ pre next out, allowing (!·.opens) (pre.head?.or next) →
      ReadsFrom (postfixStep wholeExpression) e pre next out →
        Reads (operand wholeExpression) (ts ++ pre) next out
  | 1 => ∀ next, allowing (Token.stops 1) next → Reads prefixed ts next (.ok e)
  | level + 2 => ∀ pre next out, allowing (Token.stops (level + 1)) (pre.head?.or next) →
      ReadsFrom (chainStep level (binary prefixed level)) e pre next out →
        Reads (binary prefixed (level + 1)) (ts ++ pre) next out

namespace Grows

variable {e : Expr} {ts : List Token} {rank : Nat} {next : Option Token}

theorem reads (h : Grows e ts rank) (hnext : allowing (Token.stops rank) next) :
    Reads (ranked rank) ts next (.ok e) := by
  match rank, h with
  | 0, h =>
    have hstop : ReadsFrom (postfixStep wholeExpression) e [] next (.ok e) :=
      .last (reads_optionally_none (allowing_guard next (stops_point next hnext)))
    have hread := h.2 [] next (.ok e) (stops_opens next hnext) hstop
    rwa [List.append_nil] at hread
  | 1, h => exact h next hnext
  | level + 2, h =>
    have hstop : ReadsFrom (chainStep level (binary prefixed level)) e [] next (.ok e) :=
      .last (reads_optionally_none (stops_operator next hnext))
    have hread := h [] next (.ok e)
      (allowing_mono (fun _ => Token.stops_le (Nat.le_succ _)) next hnext) hstop
    rwa [List.append_nil] at hread

theorem succ (h : Grows e ts rank) : Grows e ts (rank + 1) := by
  match rank, h with
  | 0, h =>
    intro next hnext
    obtain ⟨t, tail, rfl, ht⟩ := h.1
    have hstop := allowing_mono (fun _ => Token.stops_le (Nat.zero_le 1)) next hnext
    refine reads_unary ?_ (reads h hstop)
    rintro u ⟨⟩
    exact ht
  | level + 1, h =>
    intro pre next out hpre hfrom
    exact (reads h hpre).bind hfrom.reads

theorem le {rank' : Nat} (h : Grows e ts rank) (le : rank ≤ rank') : Grows e ts rank' := by
  induction le with
  | refl => exact h
  | step _ ih => exact ih.succ

end Grows

/-- Every list of `l` is read as `e`, up to lines, by the parser for the rank. -/
def Regains (l : Language Token) (e : Expr) (rank : Nat) : Prop :=
  ∀ ts ∈ l, ∃ e', e'.forgetLines = e.forgetLines ∧ Grows e' ts rank

section Expressions

variable {l m : Language Token} {e : Expr} {rank : Nat}

theorem Regains.inverts (h : Regains l e rank) (le : rank ≤ BinaryOp.levels + 1) :
    Inverts wholeExpression l (allowing (Token.stops (BinaryOp.levels + 1)))
      fun e' => e'.forgetLines = e.forgetLines := by
  intro ts hts
  obtain ⟨e', he, hgrows⟩ := h ts hts
  refine ⟨e', he, fun next hnext => ?_⟩
  rw [← ranked_levels]
  exact (hgrows.le le).reads hnext

/-- An expression that starts with a word and goes on with what follows that word. -/
theorem regains_first {kind : TokenKind} {text : String} (q : Token → Parser Expr)
    (hfirst : ∀ line column, unaryOp? ⟨kind, text, line, column⟩ = none ∧
      afterFirst? wholeExpression ⟨kind, text, line, column⟩ = some (q ⟨kind, text, line, column⟩))
    (h : ∀ t : Token, t.text = text → Inverts (q t) m (allowing (!·.opens))
      fun e' => e'.forgetLines = e.forgetLines) : Regains (Rendering.word kind text * m) e 0 := by
  intro ts hts
  obtain ⟨u, ⟨t, rfl, rfl, rfl⟩, v, hv, rfl⟩ := Language.mem_mul.mp hts
  obtain ⟨hunary, hq⟩ := hfirst t.line t.column
  obtain ⟨e', he, hread⟩ := h t rfl v hv
  refine ⟨e', he, ⟨t, v, rfl, hunary⟩, fun pre next out hpre hfrom => ?_⟩
  exact (reads_primary hq (hread _ hpre)).bind hfrom.reads

theorem regains_parenthesized (h : Regains l e rank) (le : rank ≤ BinaryOp.levels + 1) :
    Regains (Rendering.parenthesized l) e 0 := by
  rw [Rendering.parenthesized]
  rw [mul_assoc]
  refine regains_first (fun _ => closing wholeExpression) (fun _ _ => ⟨rfl, rfl⟩) fun t _ => ?_
  refine (h.inverts le).bind (fun e' he => ?_) (leads_word fun _ _ => rfl)
  exact (inverts_expect (by decide)).before.bind_pure fun _ _ => he

theorem regains_enclosed (h : Regains e.rendering e e.rank) (rank : Nat) :
    Regains (Rendering.enclosed (rank < e.rank) e.rendering) e rank := by
  rw [Rendering.enclosed]
  split
  · intro ts hts
    obtain ⟨e', he, hgrows⟩ := regains_parenthesized h e.rank_le ts hts
    exact ⟨e', he, hgrows.le (Nat.zero_le _)⟩
  · rename_i hrank
    intro ts hts
    obtain ⟨e', he, hgrows⟩ := h ts hts
    exact ⟨e', he, hgrows.le (by simpa using hrank)⟩

theorem regains_unary (op : UnaryOp) (line : Nat) (h : Regains l e 1) :
    Regains (Rendering.word op.kind op.symbol * l) (.unary op e line) 1 := by
  intro ts hts
  obtain ⟨u, ⟨t, rfl, hkind, htext⟩, v, hv, rfl⟩ := Language.mem_mul.mp hts
  obtain ⟨e', he, hgrows⟩ := h v hv
  have hop : unaryOp? t = some op := by
    rw [unaryOp?]
    cases op <;> simp [hkind, htext, UnaryOp.kind, UnaryOp.symbol]
  refine ⟨.unary op e' t.line, ?_, fun next hnext => reads_unary_op hop (hgrows next hnext)⟩
  simp only [Expr.forgetLines, he]

theorem operator_stops (op : BinaryOp) (line column : Nat) :
    Token.stops (op.level + 1) ⟨op.kind, op.symbol, line, column⟩ = true := by
  cases op <;> rfl

theorem operatorOf?_symbol (op : BinaryOp) {t : Token} (hkind : t.kind = op.kind)
    (htext : t.text = op.symbol) : operatorOf? op.level t = some op := by
  have hstring : t.kind ≠ .string := by
    rw [hkind]
    cases op <;> decide
  simp [operatorOf?, binaryOp?, hstring, htext, BinaryOp.ofSymbol?_symbol]

/-- The left operand may be a chain of the same level, from which the chain goes on. -/
theorem regains_binary (op : BinaryOp) (line : Nat) {left right : Expr}
    (hleft : Regains l left (op.level + 2)) (hright : Regains m right (op.level + 1)) :
    Regains (l * (Rendering.word op.kind op.symbol * m)) (.binary op left right line)
      (op.level + 2) := by
  intro ts hts
  obtain ⟨u, hu, w, hw, rfl⟩ := Language.mem_mul.mp hts
  obtain ⟨_, ⟨t, rfl, hkind, htext⟩, v, hv, rfl⟩ := Language.mem_mul.mp hw
  obtain ⟨left', hl, hgrowsLeft⟩ := hleft u hu
  obtain ⟨right', hr, hgrowsRight⟩ := hright v hv
  refine ⟨.binary op left' right' t.line, by simp only [Expr.forgetLines, hl, hr], ?_⟩
  intro pre next out hpre hfrom
  have hstep : Reads (chainStep op.level (binary prefixed op.level) left') ([t] ++ v)
      (pre.head?.or next) (.ok (some (.binary op left' right' t.line))) := by
    refine reads_optionally rfl (operatorOf?_symbol op hkind htext) ?_
    exact (reads_skip t).bind (hgrowsRight.reads hpre).bind_pure
  rw [List.append_assoc]
  refine hgrowsLeft _ next out ?_ (.cons (List.cons_ne_nil t v) hstep hfrom)
  have hstops := operator_stops op t.line t.column
  rw [← hkind, ← htext] at hstops
  exact hstops

/-- A member access or a call of a method after an expression. -/
theorem regains_postfix {target : Expr} (h : Regains l target 0)
    (hq : ∀ (target' : Expr) (line : Nat), target'.forgetLines = target.forgetLines →
      Inverts (afterPoint wholeExpression target' line) m (allowing (!·.opens))
        fun e' => e'.forgetLines = e.forgetLines) :
    Regains (l * (Rendering.word .dot "." * m)) e 0 := by
  intro ts hts
  obtain ⟨u, hu, w, hw, rfl⟩ := Language.mem_mul.mp hts
  obtain ⟨_, ⟨dot, rfl, hkind, htext⟩, v, hv, rfl⟩ := Language.mem_mul.mp hw
  obtain ⟨target', ht, ⟨t, tail, rfl, hunary⟩, hgrows⟩ := h u hu
  obtain ⟨e', he, hread⟩ := hq target' dot.line ht v hv
  refine ⟨e', he, ⟨t, _, rfl, hunary⟩, fun pre next out hpre hfrom => ?_⟩
  have hdot : dot.isText "." = true := by simp [Token.isText, hkind, htext]
  have hstep : Reads (postfixStep wholeExpression target') ([dot] ++ v) (pre.head?.or next)
      (.ok (some e')) :=
    reads_whenNext rfl hdot ((reads_skip dot).bind (hread _ hpre))
  rw [List.append_assoc]
  refine hgrows _ next out ?_ (.cons (List.cons_ne_nil dot v) hstep hfrom)
  simp [allowing, Token.opens, Token.isText, hkind, htext]

end Expressions

section FirstTokens

open Rendering

/-- Whether the token may stand in an expression, as far as what surrounds it is told apart by
that. -/
def inExpression (t : Token) : Bool :=
  t.kind != .assign && (t.kind != .keyword || expressionWords.contains t.text) &&
    !t.isText ";" && !t.isText "\x7d" && !t.isText "else" && !t.isText "finally"

theorem inExpression_name {x : String} (h : IsName x) (line column : Nat) :
    inExpression ⟨.identifier, x, line, column⟩ = true := by
  have hne : x ≠ ";" ∧ x ≠ "\x7d" ∧ x ≠ "else" ∧ x ≠ "finally" :=
    ⟨h.ne (by decide), h.ne (by decide), h.ne (by decide),
      h.ne (by decide)⟩
  simp [inExpression, Token.isText, hne]

theorem inExpression_numeral {x : String} (h : IsNumeral x) (line column : Nat) :
    inExpression ⟨.number, x, line, column⟩ = true := by
  have hne : x ≠ ";" ∧ x ≠ "\x7d" ∧ x ≠ "else" ∧ x ≠ "finally" :=
    ⟨h.ne (by decide), h.ne (by decide), h.ne (by decide),
      h.ne (by decide)⟩
  simp [inExpression, Token.isText, hne]

theorem mem_expressionWords {t : Token} (h : inExpression t = true) (hkind : t.kind = .keyword) :
    t.text ∈ expressionWords := by
  simp only [inExpression, Bool.and_eq_true, Bool.or_eq_true, bne_iff_ne, hkind] at h
  simpa using h.1.1.1.1.2

theorem holds_enclosed {l : Language Token} {needed : Bool}
    (h : Holds l (inExpression · = true)) :
    Holds (enclosed needed l) (inExpression · = true) := by
  rw [enclosed]
  split
  · exact holds_parenthesized (fun _ _ => rfl) (fun _ _ => rfl) h
  · exact h

theorem holds_arguments {args : List Expr}
    (h : ∀ e ∈ args, Holds e.rendering (inExpression · = true)) :
    Holds (Rendering.parenthesized (listed (Expr.renderings args)))
      (inExpression · = true) := by
  refine holds_parenthesized (fun _ _ => rfl) (fun _ _ => rfl) ?_
  refine holds_listed (fun _ _ => rfl) fun l hl => ?_
  rw [Expr.renderings_eq_map] at hl
  obtain ⟨e, he, rfl⟩ := List.mem_map.mp hl
  exact h e he

theorem holds_rendering {e : Expr} (h : e.WellFormed) :
    Holds e.rendering (inExpression · = true) := by
  induction h with
  | @intro e here inside ih =>
    cases e with
    | number x line =>
      rintro ts ⟨t, rfl, hkind, htext, _⟩ u hu
      rw [List.mem_singleton.mp hu]
      have h := inExpression_numeral htext t.line t.column
      rw [← hkind] at h
      exact h
    | text x line => exact holds_word fun _ _ => rfl
    | boolean b line => cases b <;> exact holds_word fun _ _ => rfl
    | null line => exact holds_word fun _ _ => rfl
    | var x line =>
      rw [Expr.rendering]
      split
      · exact holds_word fun _ _ => rfl
      · rename_i hthis
        exact holds_word (inExpression_name (here.resolve_right hthis))
    | unary op e line =>
      rw [Expr.rendering]
      refine .mul (holds_word fun _ _ => ?_) (holds_enclosed (ih e List.mem_cons_self))
      cases op <;> rfl
    | binary op l r line =>
      rw [Expr.rendering]
      have left := ih l (by simp [Expr.operands])
      have right := ih r (by simp [Expr.operands])
      refine .mul (.mul (holds_enclosed left) (holds_word fun _ _ => ?_)) (holds_enclosed right)
      cases op <;> rfl
    | call f args line =>
      exact .mul (holds_word (inExpression_name here)) (holds_arguments ih)
    | new c line =>
      refine .mul (.mul (holds_word fun _ _ => rfl) (holds_word (inExpression_name here))) ?_
      exact holds_parenthesized (fun _ _ => rfl) (fun _ _ => rfl) holds_one
    | member e x line =>
      exact .mul (.mul (holds_enclosed (ih e List.mem_cons_self)) (holds_word fun _ _ => rfl))
        (holds_word (inExpression_name here))
    | methodCall e m args line =>
      exact .mul (.mul (.mul (holds_enclosed (ih e List.mem_cons_self)) (holds_word fun _ _ => rfl))
        (holds_word (inExpression_name here)))
        (holds_arguments fun e he => ih e (List.mem_cons_of_mem _ he))
    | superCall m args line =>
      exact .mul (.mul (.mul (holds_word fun _ _ => rfl) (holds_word fun _ _ => rfl))
        (holds_word (inExpression_name here))) (holds_arguments ih)

/-- How a rendering begins: never with a closing parenthesis, and with a token that would make a
name of `print` only if it is a parenthesis. -/
def Begins (e : Expr) (t : Token) : Prop :=
  t.isText ")" = false ∧ (continuesName t = true → e.startsParen = true)

theorem begins_name {x : String} (h : IsName x) (e : Expr) (line column : Nat) :
    Begins e ⟨.identifier, x, line, column⟩ := by
  have hne : x ≠ ")" ∧ x ≠ "(" ∧ x ≠ "=" ∧ x ≠ "." :=
    ⟨h.ne (by decide), h.ne (by decide), h.ne (by decide),
      h.ne (by decide)⟩
  simp [Begins, continuesName, Token.isText, hne]

theorem starts_enclosed {e e' : Expr} {rank : Nat} (h : Starts e.rendering (Begins e))
    (hparen : (rank < e.rank || e.startsParen) = true → e'.startsParen = true) :
    Starts (enclosed (rank < e.rank) e.rendering) (Begins e') := by
  rw [enclosed]
  split
  · rename_i hrank
    exact ((starts_word fun _ _ => ⟨rfl, fun _ => hparen (by simp [hrank])⟩).mul).mul
  · intro ts hts
    obtain ⟨t, hhead, hclose, hcontinues⟩ := h ts hts
    exact ⟨t, hhead, hclose, fun ht => hparen (by simp [hcontinues ht])⟩

theorem starts_rendering {e : Expr} (h : e.WellFormed) : Starts e.rendering (Begins e) := by
  induction h with
  | @intro e here inside ih =>
    cases e with
    | number x line =>
      rintro ts ⟨t, rfl, _, htext, _⟩
      have hne : t.text ≠ ")" ∧ t.text ≠ "(" ∧ t.text ≠ "=" ∧ t.text ≠ "." :=
        ⟨htext.ne (by decide), htext.ne (by decide), htext.ne (by decide),
          htext.ne (by decide)⟩
      exact ⟨t, rfl, by simp [Begins, continuesName, Token.isText, hne]⟩
    | text x line =>
      refine starts_word fun _ _ => ⟨rfl, fun h => ?_⟩
      simp [continuesName, Text.literal_ne_symbol] at h
    | boolean b line => cases b <;> exact starts_word fun _ _ => ⟨rfl, fun h => by cases h⟩
    | null line => exact starts_word fun _ _ => ⟨rfl, fun h => by cases h⟩
    | var x line =>
      rw [Expr.rendering]
      split
      · exact starts_word fun _ _ => ⟨rfl, fun h => by cases h⟩
      · rename_i hthis
        exact starts_word (begins_name (here.resolve_right hthis) _)
    | unary op e line =>
      refine (starts_word fun _ _ => ?_).mul
      cases op <;> exact ⟨rfl, fun h => by cases h⟩
    | binary op l r line =>
      exact (starts_enclosed (ih l (by simp [Expr.operands])) id).mul.mul
    | call f args line => exact (starts_word (begins_name here _)).mul
    | new c line => exact (starts_word fun _ _ => ⟨rfl, fun h => by cases h⟩).mul.mul
    | member e x line => exact (starts_enclosed (ih e List.mem_cons_self) id).mul.mul
    | methodCall e m args line =>
      exact (starts_enclosed (ih e List.mem_cons_self) id).mul.mul.mul
    | superCall m args line =>
      exact (starts_word fun _ _ => ⟨rfl, fun h => by cases h⟩).mul.mul.mul

end FirstTokens

section Trees

open Rendering

theorem inverts_arguments {args : List Expr} (wf : ∀ e ∈ args, e.WellFormed)
    (h : ∀ e ∈ args, Regains e.rendering e e.rank) :
    Inverts (Parser.parenthesized wholeExpression)
      (Rendering.parenthesized (listed (Expr.renderings args))) anything
      fun args' => Expr.forgetLinesAll args' = Expr.forgetLinesAll args := by
  simp only [Expr.renderings_eq_map, Expr.forgetLinesAll_eq_map]
  refine (inverts_parenthesized (fun e he => (h e he).inverts e.rank_le) (fun _ _ => rfl)
    (fun _ _ => rfl) fun e he ts hts => ?_).mono (fun _ => id) fun _ => map_eq_iff_forall₂.mpr
  obtain ⟨t, hhead, hclose, _⟩ := starts_rendering (wf e he) ts hts
  exact ⟨t, hhead, hclose⟩

theorem starts_parenthesized (l : Language Token) {P : Token → Prop}
    (h : ∀ line column, P ⟨.lparen, "(", line, column⟩) :
    Starts (Rendering.parenthesized l) P :=
  (starts_word h).mul.mul

theorem opens_lparen (next : Option Token) (h : allowing (!·.opens) next) :
    allowing (fun t => !decide (t.kind = .lparen)) next :=
  allowing_mono (fun t ht => by simp_all [Token.opens]) next h

theorem opens_text (next : Option Token) (h : allowing (!·.opens) next) :
    allowing (!·.isText "(") next :=
  allowing_mono (fun t ht => by simp_all [Token.opens]) next h

theorem regains_rendering {e : Expr} (wf : e.WellFormed) : Regains e.rendering e e.rank := by
  induction wf with
  | @intro e here inside ih =>
    cases e with
    | number x line =>
      rintro ts ⟨t, rfl, hkind, _, hvalue⟩
      refine ⟨.number (numberValue t.text) t.line, by rw [hvalue]; rfl, ⟨t, [], rfl, ?_⟩, ?_⟩
      · simp [unaryOp?, hkind]
      · intro pre next out hpre hfrom
        have hfirst : afterFirst? wholeExpression t =
            some (return .number (numberValue t.text) t.line) := by
          rw [afterFirst?, hkind]
        exact (reads_primary hfirst (.pure _)).bind hfrom.reads
    | text x line =>
      rw [Expr.rendering, ← mul_one (word _ _)]
      refine regains_first (fun t => return .text (Text.unescape t.text) t.line)
        (fun _ _ => ⟨rfl, rfl⟩) fun t htext => inverts_pure ?_
      rw [htext, Text.unescape_literal]
      rfl
    | boolean b line =>
      rw [Expr.rendering, ← mul_one (keyword _)]
      refine regains_first (fun t => return .boolean b t.line) (fun _ _ => ?_) fun t _ =>
        inverts_pure rfl
      cases b <;> exact ⟨rfl, rfl⟩
    | null line =>
      rw [Expr.rendering, ← mul_one (keyword _)]
      exact regains_first (fun t => return .null t.line) (fun _ _ => ⟨rfl, rfl⟩) fun t _ =>
        inverts_pure rfl
    | var x line =>
      rw [Expr.rendering]
      split
      · rename_i hthis
        subst hthis
        rw [← mul_one (keyword _)]
        exact regains_first (fun t => return .var "this" t.line) (fun _ _ => ⟨rfl, rfl⟩) fun t _ =>
          inverts_pure rfl
      · rw [← mul_one (identifier _)]
        refine regains_first (fun t => afterName wholeExpression t) (fun _ _ => ⟨rfl, rfl⟩)
          fun t htext => ?_
        refine .whenNext_none (inverts_pure ?_) (leads_one opens_lparen)
        simp only [Expr.forgetLines, htext]
    | unary op e line =>
      exact regains_unary op line (regains_enclosed (ih e List.mem_cons_self) 1)
    | binary op l r line =>
      rw [Expr.rendering, mul_assoc]
      exact regains_binary op line (regains_enclosed (ih l (by simp [Expr.operands])) _)
        (regains_enclosed (ih r (by simp [Expr.operands])) _)
    | call f args line =>
      refine regains_first (fun t => afterName wholeExpression t) (fun _ _ => ⟨rfl, rfl⟩)
        fun t htext => ?_
      refine .whenNext_some ?_ (starts_parenthesized _ fun _ _ => rfl)
      refine (inverts_arguments inside ih).before.bind_pure fun args' hargs => ?_
      simp only [Expr.forgetLines, hargs, htext, Expr.operands]
    | new c line =>
      rw [Expr.rendering, mul_assoc]
      refine regains_first (fun t => newObject t.line) (fun _ _ => ⟨rfl, rfl⟩) fun t _ => ?_
      refine (inverts_name _).andThen fun c' hc => ?_
      rw [Rendering.parenthesized, mul_one]
      refine .after_some (by decide) ?_
      refine (inverts_expect (by decide)).before.bind_pure fun _ _ => ?_
      simp only [Expr.forgetLines, hc]
    | member e x line =>
      rw [Expr.rendering, mul_assoc]
      refine regains_postfix (regains_enclosed (ih e List.mem_cons_self) 0) fun e' line he => ?_
      rw [← mul_one (identifier x)]
      refine (inverts_name _).andThen fun x' hx => ?_
      refine .whenNext_none (inverts_pure ?_) (leads_one opens_text)
      simp only [Expr.forgetLines, he, hx]
    | methodCall e m args line =>
      rw [Expr.rendering, mul_assoc, mul_assoc]
      refine regains_postfix (regains_enclosed (ih e List.mem_cons_self) 0) fun e' line he => ?_
      refine (inverts_name _).andThen fun x' hx => ?_
      refine .whenNext_some ?_ (starts_parenthesized _ fun _ _ => rfl)
      refine (inverts_arguments (fun e he => inside e (List.mem_cons_of_mem _ he))
        fun e he => ih e (List.mem_cons_of_mem _ he)).before.bind_pure fun args' hargs => ?_
      simp only [Expr.forgetLines, he, hx, hargs]
    | superCall m args line =>
      rw [Expr.rendering, mul_assoc, mul_assoc]
      refine regains_first (fun t => superCall wholeExpression t.line) (fun _ _ => ⟨rfl, rfl⟩)
        fun t _ => ?_
      refine (inverts_expect (by decide)).andThen fun _ _ => ?_
      refine (inverts_name _).andThen fun m' hm => ?_
      refine (inverts_arguments inside ih).before.bind_pure fun args' hargs => ?_
      simp only [Expr.forgetLines, hm, hargs, Expr.operands]

theorem kind_of_cons {kind : TokenKind} {l : Language Token} {t : Token} {tail : List Token}
    (starts : Starts l (·.kind = kind)) (hts : t :: tail ∈ l) : t.kind = kind := by
  obtain ⟨u, hhead, hu⟩ := starts _ hts
  cases hhead
  exact hu

/-- What starts with a name and not with a parenthesis starts with the operand itself. -/
theorem cons_of_enclosed {e : Expr} (wf : e.WellFormed) {rank : Nat} {m : Language Token}
    {t : Token} {tail : List Token} (hts : t :: tail ∈ enclosed (rank < e.rank) e.rendering * m)
    (hkind : t.kind = .identifier) :
    e.rank ≤ rank ∧ ∃ u, t :: u ∈ e.rendering ∧ ∃ v ∈ m, tail = u ++ v := by
  obtain ⟨u, hu, v, hv, huv⟩ := Language.mem_mul.mp hts
  rw [enclosed] at hu
  split at hu
  · have hstarts := starts_parenthesized e.rendering (P := (·.kind = .lparen)) fun _ _ => rfl
    obtain ⟨w, hhead, hw⟩ := hstarts u hu
    obtain ⟨u', rfl⟩ := List.head?_eq_some_iff.mp hhead
    cases huv
    rw [hkind] at hw
    cases hw
  · rename_i hrank
    obtain ⟨w, hhead, _⟩ := starts_rendering wf u hu
    obtain ⟨u', rfl⟩ := List.head?_eq_some_iff.mp hhead
    rw [List.cons_append] at huv
    obtain ⟨rfl, rfl⟩ := List.cons_eq_cons.mp huv
    exact ⟨by simpa using hrank, u', hu, v, hv, rfl⟩

/-- What follows a `print` at the start of a rendering makes it a name like any other. -/
def NamesPrint (tail : List Token) : Prop :=
  ∃ u, tail.head? = some u ∧ continuesName u = true

/-- An access to a target goes on with a point where the target itself does not go on. -/
theorem namesPrint_of_access {target : Expr} (wf : target.WellFormed) {l : Language Token}
    {t : Token} {tail : List Token} (hkind : t.kind = .identifier)
    (hts : t :: tail ∈ enclosed (0 < target.rank) target.rendering * (word .dot "." * l))
    (h : ∀ tail, t :: tail ∈ target.rendering →
      NamesPrint tail ∨ target.startsPrint = true ∧ (target.rank = 0 → tail = [])) :
    NamesPrint tail := by
  obtain ⟨hrank, u, hu, v, hv, rfl⟩ := cons_of_enclosed wf hts hkind
  rcases h u hu with ⟨w, hw, hcontinues⟩ | ⟨_, hnil⟩
  · exact ⟨w, by rw [List.head?_append, hw, Option.some_or], hcontinues⟩
  · rw [hnil (Nat.le_zero.mp hrank), List.nil_append]
    exact (starts_word (P := (continuesName · = true)) fun _ _ => rfl).mul v hv

/-- A rendering that starts with `print` goes on with a point or a parenthesis, unless the variable
`print` is an operand at its start. -/
theorem namesPrint_or {e : Expr} (wf : e.WellFormed) {t : Token} (hkind : t.kind = .identifier)
    (htext : t.text = "print") : ∀ tail, t :: tail ∈ e.rendering →
      NamesPrint tail ∨ e.startsPrint = true ∧ (e.rank = 0 → tail = []) := by
  induction wf with
  | @intro e here inside ih =>
    intro tail hts
    have other {kind : TokenKind} (hne : kind ≠ .identifier)
        (starts : Starts e.rendering (·.kind = kind)) :
        NamesPrint tail ∨ e.startsPrint = true ∧ (e.rank = 0 → tail = []) :=
      absurd ((kind_of_cons starts hts).symm.trans hkind) hne
    cases e with
    | number x line =>
      have starts : Starts (numeral x) (·.kind = .number) := by
        rintro ts ⟨u, rfl, hu, _, _⟩
        exact ⟨u, rfl, hu⟩
      exact other (by decide) starts
    | text x line => exact other (by decide) (starts_word fun _ _ => rfl)
    | boolean b line => exact other (by decide) (starts_word fun _ _ => rfl)
    | null line => exact other (by decide) (starts_word fun _ _ => rfl)
    | var x line =>
      rw [Expr.rendering] at hts
      split at hts
      · exact absurd ((kind_of_cons (starts_word fun _ _ => rfl) hts).symm.trans hkind) (by decide)
      · obtain ⟨u, hu, _, hx⟩ := hts
        obtain ⟨rfl, rfl⟩ := List.cons_eq_cons.mp hu
        exact Or.inr ⟨by simp [Expr.startsPrint, ← hx, htext], fun _ => rfl⟩
    | unary op e line =>
      have hne : op.kind ≠ .identifier := by cases op <;> decide
      exact other hne (starts_word fun _ _ => rfl).mul
    | binary op l r line =>
      rw [Expr.rendering, mul_assoc] at hts
      obtain ⟨hrank, u, hu, v, _, rfl⟩ :=
        cons_of_enclosed (inside l (by simp [Expr.operands])) hts hkind
      rcases ih l (by simp [Expr.operands]) u hu with ⟨w, hw, hcontinues⟩ | ⟨hprint, _⟩
      · exact Or.inl ⟨w, by rw [List.head?_append, hw, Option.some_or], hcontinues⟩
      · exact Or.inr ⟨by simp [Expr.startsPrint, hrank, hprint], fun h => by cases h⟩
    | call f args line =>
      obtain ⟨u, ⟨w, rfl, _, _⟩, v, hv, huv⟩ := Language.mem_mul.mp hts
      cases huv
      exact Or.inl (starts_parenthesized _ (P := (continuesName · = true)) (fun _ _ => rfl) v hv)
    | new c line => exact other (by decide) (starts_word fun _ _ => rfl).mul.mul
    | member e x line =>
      rw [Expr.rendering, mul_assoc] at hts
      exact Or.inl (namesPrint_of_access (inside e List.mem_cons_self) hkind hts
        (ih e List.mem_cons_self))
    | methodCall e m args line =>
      rw [Expr.rendering, mul_assoc, mul_assoc] at hts
      exact Or.inl (namesPrint_of_access (inside e List.mem_cons_self) hkind hts
        (ih e List.mem_cons_self))
    | superCall m args line => exact other (by decide) (starts_word fun _ _ => rfl).mul.mul.mul

end Trees

end Parser

end ClassScript
