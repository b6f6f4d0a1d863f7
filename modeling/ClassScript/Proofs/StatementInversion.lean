import ClassScript.Proofs.ExpressionInversion
import Mathlib.Algebra.BigOperators.Group.List.Defs

/-!
# Reading statements back

A body is always in braces, so that nothing after it can be taken for a part of it, except for an
`else` or a `finally` after a statement that has none. A simple statement ends with its semicolon.
-/

namespace ClassScript.Parser

open Rendering Computability

section Simple

/-- What a simple statement without its end stands before. -/
def endsSimple : Follow :=
  allowing fun t => t.stops (BinaryOp.levels + 1) && t.kind != .assign

theorem endsSimple_stops (next : Option Token) (h : endsSimple next) :
    allowing (Token.stops (BinaryOp.levels + 1)) next :=
  allowing_mono (fun _ ht => (Bool.and_eq_true_iff.mp ht).1) next h

theorem endsSimple_assign (next : Option Token) (h : endsSimple next) :
    allowing (fun t => !decide (t.kind = .assign)) next :=
  allowing_mono (fun _ ht => by simpa using (Bool.and_eq_true_iff.mp ht).2) next h

theorem inverts_expression {e : Expr} (wf : e.WellFormed) :
    Inverts wholeExpression e.rendering (allowing (Token.stops (BinaryOp.levels + 1)))
      fun e' => e'.forgetLines = e.forgetLines :=
  (regains_rendering wf).inverts e.rank_le

theorem inverts_assigned {e : Expr} (wf : e.WellFormed) {α : Type} {k : Option Expr → Parser α}
    {l : Language Token} {F : Follow} {S : α → Prop}
    (h : ∀ e' : Expr, e'.forgetLines = e.forgetLines → Inverts (k (some e')) l F S)
    (hl : Leads l F (allowing (Token.stops (BinaryOp.levels + 1)))) :
    Inverts (assigned? wholeExpression >>= k) (e.assignedRendering * l) F S := by
  have hvalue : Inverts (do skip; wholeExpression) e.assignedRendering
      (allowing (Token.stops (BinaryOp.levels + 1))) fun e' => e'.forgetLines = e.forgetLines :=
    inverts_skip (inverts_expression wf)
  exact .whenNext_some (hvalue.bind h hl) (starts_word fun _ _ => rfl).mul.mul

theorem inverts_fromExpression {e : Expr} (wf : e.WellFormed) {l : Language Token} {F : Follow}
    {S : Simple → Prop}
    (h : ∀ (e' : Expr) (line : Nat), e'.forgetLines = e.forgetLines →
      Inverts (afterExpression wholeExpression e' line) l F S)
    (hl : Leads l F (allowing (Token.stops (BinaryOp.levels + 1)))) :
    Inverts (simpleFromExpression wholeExpression) (e.rendering * l) F S := by
  exact .currentLine (starts_rendering wf).mul fun line =>
    (inverts_expression wf).bind (fun e' he => h e' line he) hl

/-- No assignment sign comes second where the rendering of an expression comes first. -/
theorem inverts_simple_of_expression {e : Expr} (wf : e.WellFormed) {l : Language Token}
    {F : Follow} {S : Simple → Prop}
    (h : Inverts (simpleFromExpression wholeExpression) (e.rendering * l) F S)
    (hsecond : ∀ t tail, t :: tail ∈ e.rendering → ∀ v ∈ l, ∀ next, F next →
      ∀ u, tail.head?.or (v.head?.or next) = some u → u.kind ≠ .assign) :
    Inverts (simple wholeExpression) (e.rendering * l) F S := by
  intro ts hts
  obtain ⟨a, ha, hread⟩ := h ts hts
  obtain ⟨u, hu, v, hv, rfl⟩ := Language.mem_mul.mp hts
  obtain ⟨t, hhead, _⟩ := starts_rendering wf u hu
  obtain ⟨u, rfl⟩ := List.head?_eq_some_iff.mp hhead
  refine ⟨a, ha, fun next hnext => ?_⟩
  have hexpression := hread next hnext
  rw [List.cons_append] at hexpression ⊢
  refine reads_simple_of_expression hexpression ?_
  rw [List.head?_append, Option.or_assoc]
  exact hsecond t u hu v hv next hnext

theorem not_assign_of_second {e : Expr} (wf : e.WellFormed) {t u : Token} {tail : List Token}
    (hts : t :: tail ∈ e.rendering) (hu : tail.head? = some u) : u.kind ≠ .assign := by
  obtain ⟨tail', rfl⟩ := List.head?_eq_some_iff.mp hu
  have h := holds_rendering wf _ hts u (by simp)
  simp only [inExpression, Bool.and_eq_true, bne_iff_ne] at h
  exact h.1.1.1.1.1

theorem member_of_forgetLines {e e' : Expr} {x : String} {line : Nat}
    (h : e'.forgetLines = (Expr.member e x line).forgetLines) :
    ∃ target line', e' = .member target x line' ∧ target.forgetLines = e.forgetLines := by
  cases e' with
  | member target y line' =>
    simp only [Expr.forgetLines, Expr.member.injEq, and_true] at h
    exact ⟨target, line', by rw [h.2], h.1⟩
  | _ => simp [Expr.forgetLines] at h

theorem inverts_simple {s : Simple} (wf : s.WellFormed) :
    Inverts (simple wholeExpression) s.rendering endsSimple
      fun s' => s'.forgetLines = s.forgetLines := by
  cases s with
  | assign x e line =>
    intro ts hts
    obtain ⟨_, ⟨t, rfl, hkind, rfl⟩, w, hw, rfl⟩ := Language.mem_mul.mp hts
    obtain ⟨_, ⟨eq, rfl, heq, _⟩, v, hv, rfl⟩ := Language.mem_mul.mp hw
    obtain ⟨e', he, hread⟩ := inverts_expression wf.2 v hv
    refine ⟨.assign t.text e' t.line, by simp only [Simple.forgetLines, he], fun next hnext => ?_⟩
    have hvalue : Reads (assignment wholeExpression t) (t :: eq :: v) next
        (.ok (.assign t.text e' t.line)) :=
      (reads_skip t).bind ((reads_skip eq).bind
        (hread next (endsSimple_stops next hnext)).bind_pure)
    have hassign : Reads (simple wholeExpression) (t :: eq :: v) next
        (.ok (.assign t.text e' t.line)) := by
      refine reads_second ?_
      simp only [List.head?_cons, Option.some_or, hkind, heq, and_self, if_true]
      exact hvalue
    exact hassign
  | assignMember e x v line =>
    obtain ⟨hwf, hx, hvalue⟩ := wf
    have hmember : (Expr.member e x 0).WellFormed := Expr.WellFormed.member hwf hx
    refine inverts_simple_of_expression hmember
      (inverts_fromExpression hmember (fun e' line he => ?_) (leads_word_mul fun _ _ => rfl)) ?_
    · obtain ⟨target, line', rfl, htarget⟩ := member_of_forgetLines he
      rw [← mul_one v.assignedRendering]
      refine inverts_assigned hvalue (fun v' hv => inverts_pure ?_) (leads_one endsSimple_stops)
      simp only [Simple.forgetLines, htarget, hv]
    · intro t tail hts w _ next _ u hu
      rcases tail with _ | ⟨second, tail⟩
      · obtain ⟨a, _, b, ⟨_, rfl, _, _⟩, hab⟩ := Language.mem_mul.mp hts
        obtain ⟨c, _, d, ⟨_, rfl, _, _⟩, rfl⟩ := Language.mem_mul.mp (show a ∈ _ * _ by assumption)
        have hlength := congrArg List.length hab
        simp at hlength
      · cases hu
        exact not_assign_of_second hmember hts rfl
  | expr e line =>
    rw [Simple.rendering, ← mul_one e.rendering]
    refine inverts_simple_of_expression wf (inverts_fromExpression wf (fun e' line he => ?_)
      (leads_one endsSimple_stops)) ?_
    · rw [afterExpression]
      cases memberTarget? e' with
      | none => exact inverts_pure (by simp only [Simple.forgetLines, he])
      | some access =>
        refine .whenNext_none (inverts_pure ?_) (leads_one endsSimple_assign)
        simp only [Simple.forgetLines, he]
    · intro t tail hts v hv next hnext u hu
      rw [Language.mem_one] at hv
      subst hv
      rcases tail with _ | ⟨second, tail⟩
      · have hassign := endsSimple_assign next hnext
        rw [show next = some u from hu] at hassign
        simpa [allowing] using hassign
      · cases hu
        exact not_assign_of_second wf hts rfl

end Simple

section Lists

/-- What a statement stands before: no word that it could go on with. -/
def goesOn : Follow :=
  allowing fun t => !t.isText "else" && !t.isText "finally"

/-- What the semicolons after a statement stand before. -/
def endsSeparators : Follow :=
  allowing fun t => !t.isText ";" && !t.isText "else" && !t.isText "finally"

/-- Whether the token is none that the end of a statement or a body is told by. -/
def startsStatement (t : Token) : Bool :=
  !t.isText ";" && !t.isText "else" && !t.isText "finally" && !t.isText "\x7d"

theorem inverts_semicolon : Inverts endSimple semicolon anything fun _ => True := by
  rintro ts ⟨t, rfl, hkind, htext⟩
  have ht : t.isText ";" = true := by
    simp [Token.isText, hkind, htext]
  exact ⟨(), trivial, fun _ _ => (reads_accept ht).bind_pure⟩

theorem inverts_skipSeparators :
    Inverts skipSeparators semicolon∗ (allowing fun t => !t.isText ";") fun _ => True := by
  intro ts hts
  rw [Language.kstar_eq_iSup_pow, Language.mem_iSup] at hts
  obtain ⟨n, hn⟩ := hts
  have each : Inverts (many (after ";" (pure ())))
      ((List.replicate n ()).map fun _ => semicolon).prod
      (fun next => anything next ∧ allowing (fun t => !t.isText ";") next)
      (List.Forall₂ (fun _ _ => True) (List.replicate n ())) := by
    refine inverts_many _ (fun _ _ => ?_) fun _ _ => starts_word fun _ _ => ⟨rfl, trivial⟩
    rw [← mul_one semicolon]
    exact inverts_skip (inverts_pure trivial)
  rw [List.map_replicate, List.prod_replicate] at each
  exact (each.bind_pure fun _ _ => trivial).mono (fun _ h => ⟨trivial, h⟩) (fun _ => id) ts hn

/-- The statement and the semicolon it needs are read back. -/
def Restored (s : Stmt) : Prop :=
  Inverts wholeStatement (s.rendering * s.ending) goesOn fun s' => s'.forgetLines = s.forgetLines

theorem endsSeparators_goesOn (next : Option Token) (h : endsSeparators next) : goesOn next :=
  allowing_mono (fun t ht => by simp_all) next h

theorem endsSeparators_semicolon (next : Option Token) (h : endsSeparators next) :
    allowing (fun t => !t.isText ";") next :=
  allowing_mono (fun t ht => by simp_all) next h

theorem leads_semicolons {F G : Follow} (hF : ∀ next, F next → G next)
    (h : ∀ line column, G (some ⟨.separator, ";", line, column⟩)) : Leads semicolon∗ F G := by
  intro ts hts
  obtain ⟨parts, rfl, hparts⟩ := Language.mem_kstar.mp hts
  rcases parts with _ | ⟨part, parts⟩
  · exact hF
  · obtain ⟨t, hhead, ht⟩ := starts_word (P := fun t => G (some t)) h part
      (hparts part List.mem_cons_self)
    intro next _
    rw [List.flatten_cons, List.head?_append, hhead, Option.some_or]
    exact ht

theorem inverts_separated {s : Stmt} (h : Restored s) :
    Inverts (separated wholeStatement) (s.rendering * s.separators) endsSeparators
      fun s' => s'.forgetLines = s.forgetLines := by
  rw [Stmt.separators, ← mul_assoc]
  refine h.bind (fun s' hs => ?_) (leads_semicolons endsSeparators_goesOn fun _ _ => rfl)
  exact (inverts_skipSeparators.mono endsSeparators_semicolon fun _ => id).bind_pure fun _ _ => hs

theorem renderingAll_eq_prod (ss : List Stmt) :
    Stmt.renderingAll ss = (ss.map fun s => s.rendering * s.separators).prod := by
  induction ss with
  | nil => rfl
  | cons s ss ih => rw [Stmt.renderingAll, ih, List.map_cons, List.prod_cons]

/-- Every statement of a list is read back and starts as a statement does. -/
def RestoredAll (ss : List Stmt) : Prop :=
  ∀ s ∈ ss, Restored s ∧ Starts s.rendering (startsStatement · = true)

theorem endsSeparators_of_starts {t : Token} (h : startsStatement t = true) :
    endsSeparators (some t) := by
  simp only [startsStatement, Bool.and_eq_true] at h
  simp only [endsSeparators, allowing, Option.all_some, h.1, Bool.and_self]

theorem inverts_statements {test : Token → Bool} {ss : List Stmt} (h : RestoredAll ss)
    (htest : ∀ t, startsStatement t = true → test t = true) :
    Inverts (many (whenNext test fun _ => separated wholeStatement)) (Stmt.renderingAll ss)
      (fun next => endsSeparators next ∧ allowing (fun t => !test t) next)
      fun ss' => Stmt.forgetLinesAll ss' = Stmt.forgetLinesAll ss := by
  simp only [renderingAll_eq_prod, Stmt.forgetLinesAll_eq_map]
  refine (inverts_many ss (fun s hs => inverts_separated (h s hs).1) fun s hs => ?_).mono
    (fun _ => id) fun _ => map_eq_iff_forall₂.mpr
  refine Starts.mul fun ts hts => ?_
  obtain ⟨t, hhead, ht⟩ := (h s hs).2 ts hts
  exact ⟨t, hhead, htest t ht, endsSeparators_of_starts ht⟩

theorem leads_statements {ss : List Stmt}
    (starts : ∀ s ∈ ss, Starts s.rendering (startsStatement · = true)) {F : Follow}
    (hF : ∀ next, F next → allowing (fun t => !t.isText ";") next) :
    Leads (Stmt.renderingAll ss) F (allowing fun t => !t.isText ";") := by
  rw [renderingAll_eq_prod]
  refine leads_prod (fun s hs => Starts.mul fun ts hts => ?_) hF
  obtain ⟨t, hhead, ht⟩ := starts s hs ts hts
  refine ⟨t, hhead, ?_⟩
  simp only [startsStatement, Bool.and_eq_true] at ht
  exact ht.1.1.1

theorem inverts_noSeparators :
    Inverts skipSeparators 1 (allowing fun t => !t.isText ";") fun _ => True := by
  intro ts hts
  rw [Language.mem_one] at hts
  subst hts
  exact inverts_skipSeparators [] (Language.nil_mem_kstar _)

theorem inverts_body {ss : List Stmt} (h : RestoredAll ss) :
    Inverts (bodyStatements whole) (Stmt.renderingAll ss * word .rbrace "\x7d") anything
      fun ss' => Stmt.forgetLinesAll ss' = Stmt.forgetLinesAll ss := by
  rw [← one_mul (Stmt.renderingAll ss * _)]
  refine inverts_noSeparators.bind (fun _ _ => ?_) ?_
  · refine (inverts_statements h fun t ht => ?_).bind (fun ss' hss => ?_) ?_
    · simp_all [startsStatement]
    · exact (inverts_expect (by decide)).bind_pure fun _ _ => hss
    · exact leads_word fun _ _ => ⟨rfl, rfl⟩
  · exact (leads_statements (fun s hs => (h s hs).2) fun _ => id).mul (leads_word fun _ _ => rfl)

theorem inverts_block {b : Block} (h : RestoredAll b.statements) :
    Inverts (block whole) b.rendering anything fun b' => b'.forgetLines = b.forgetLines := by
  obtain ⟨ss, line⟩ := b
  refine .currentLine starts_some.mul.mul fun line => ?_
  rw [Block.rendering, Rendering.inBraces, mul_assoc]
  refine .after_some (by decide) ?_
  refine (inverts_body h).bind_pure fun ss' hss => ?_
  simp only [Block.forgetLines, hss, Block.statements]

end Lists

section Keywords

variable {m : Language Token} {F : Follow} {S : Stmt → Prop}

theorem wholeStatement_of_keyword {t : Token} {q : Parser Stmt} (ht : t.kind = .keyword)
    (hq : afterStatementWord? whole t = some q) (tail : List Token) :
    wholeStatement (t :: tail) = q tail := by
  rw [wholeStatement_eq, statementStep_of_keyword ht rfl, keywordStatement, hq]
  rfl

/-- A statement that starts with a keyword of its own. -/
theorem inverts_keyword {text : String} (q : Token → Parser Stmt)
    (hq : ∀ kind line column, afterStatementWord? whole ⟨kind, text, line, column⟩ =
      some (q ⟨kind, text, line, column⟩))
    (h : ∀ t, Inverts (q t) m F S) : Inverts wholeStatement (keyword text * m) F S := by
  intro ts hts
  obtain ⟨_, ⟨t, rfl, hkind, rfl⟩, v, hv, rfl⟩ := Language.mem_mul.mp hts
  obtain ⟨s, hs, hread⟩ := h t v hv
  refine ⟨s, hs, fun next hnext rest hrest => ?_⟩
  rw [← hread next hnext rest hrest]
  exact wholeStatement_of_keyword hkind (hq t.kind t.line t.column) (v ++ rest)

theorem inverts_condition {c : Expr} (wf : c.WellFormed) :
    Inverts (condition whole) (Rendering.parenthesized c.rendering) anything
      fun c' => c'.forgetLines = c.forgetLines := by
  rw [Rendering.parenthesized, mul_assoc]
  refine (inverts_expect (by decide)).andThen fun _ _ => ?_
  refine (inverts_expression wf).bind (fun c' hc => ?_) (leads_word fun _ _ => rfl)
  exact (inverts_expect (by decide)).bind_pure fun _ _ => hc

theorem inverts_params {ps : List String} (names : ∀ x ∈ ps, IsName x) :
    Inverts params (parameters ps) anything (· = ps) := by
  refine (inverts_parenthesized (fun x _ => inverts_name _) (fun _ _ => trivial)
    (fun _ _ => trivial) fun x hx => ?_).mono (fun _ => id) fun _ => eq_of_forall₂
  have hne : x ≠ ")" := (names x hx).ne (by decide)
  exact starts_word fun _ _ => by simp [Token.isText, hne]

theorem restored_of_compound {s : Stmt} (hs : s.isCompound = true)
    (h : Inverts wholeStatement s.rendering goesOn fun s' => s'.forgetLines = s.forgetLines) :
    Restored s := by
  rwa [Restored, Stmt.ending, hs, if_pos rfl, mul_one]

theorem restored_of_ended {s : Stmt} (hs : s.isCompound = false)
    (h : Inverts wholeStatement (s.rendering * semicolon) anything
      fun s' => s'.forgetLines = s.forgetLines) : Restored s := by
  rw [Restored, Stmt.ending, hs]
  exact h.before

theorem restored_conditional {c : Expr} {t : Block} {e : Option Block} {line : Nat}
    (wf : c.WellFormed) (ht : RestoredAll t.statements) (he : ∀ b ∈ e, RestoredAll b.statements) :
    Restored (.conditional c t e line) := by
  refine restored_of_compound rfl ?_
  cases e with
  | none =>
    rw [Stmt.rendering, mul_assoc]
    refine inverts_keyword (fun w => conditional whole w.line) (fun _ _ _ => rfl) fun w => ?_
    refine (inverts_condition wf).andThen fun c' hc => ?_
    rw [← mul_one t.rendering]
    refine (inverts_block ht).andThen fun t' ht => ?_
    refine .whenNext_none (inverts_pure ?_) (leads_one fun next h => ?_)
    · simp only [Stmt.forgetLines, hc, ht]
    · exact allowing_mono (fun t ht => by simp_all) next h
  | some e =>
    rw [Stmt.rendering, mul_assoc, mul_assoc]
    refine inverts_keyword (fun w => conditional whole w.line) (fun _ _ _ => rfl) fun w => ?_
    refine (inverts_condition wf).andThen fun c' hc => ?_
    refine (inverts_block ht).andThen fun t' ht => ?_
    refine .after_some (by decide) ?_
    refine (inverts_block (he e rfl)).before.bind_pure fun e' he => ?_
    simp only [Stmt.forgetLines, hc, ht, he]

theorem restored_whileLoop {c : Expr} {b : Block} {line : Nat} (wf : c.WellFormed)
    (hb : RestoredAll b.statements) : Restored (.whileLoop c b line) := by
  refine restored_of_compound rfl ?_
  rw [Stmt.rendering, mul_assoc]
  refine inverts_keyword (fun w => whileLoop whole w.line) (fun _ _ _ => rfl) fun w => ?_
  refine (inverts_condition wf).andThen fun c' hc => ?_
  refine (inverts_block hb).before.bind_pure fun b' hb => ?_
  simp only [Stmt.forgetLines, hc, hb]

theorem restored_forLoop {i u : Simple} {c : Expr} {b : Block} {line : Nat} (hi : i.WellFormed)
    (hc : c.WellFormed) (hu : u.WellFormed) (hb : RestoredAll b.statements) :
    Restored (.forLoop i c u b line) := by
  refine restored_of_compound rfl ?_
  rw [Stmt.rendering, Rendering.parenthesized]
  simp only [mul_assoc]
  refine inverts_keyword (fun w => forLoop whole w.line) (fun _ _ _ => rfl) fun w => ?_
  refine (inverts_expect (by decide)).andThen fun _ _ => ?_
  refine (inverts_simple hi).bind (fun i' hi => ?_) (leads_word_mul fun _ _ => rfl)
  refine (inverts_expect (by decide)).andThen fun _ _ => ?_
  refine (inverts_expression hc).bind (fun c' hc => ?_) (leads_word_mul fun _ _ => rfl)
  refine (inverts_expect (by decide)).andThen fun _ _ => ?_
  refine (inverts_simple hu).bind (fun u' hu => ?_) (leads_word_mul fun _ _ => rfl)
  refine (inverts_expect (by decide)).andThen fun _ _ => ?_
  refine (inverts_block hb).before.bind_pure fun b' hb => ?_
  simp only [Stmt.forgetLines, hi, hc, hu, hb]

theorem restored_function {f : String} {ps : List String} {b : Block} {line : Nat}
    (names : ∀ x ∈ ps, IsName x) (hb : RestoredAll b.statements) :
    Restored (.function f ps b line) := by
  refine restored_of_compound rfl ?_
  simp only [Stmt.rendering, mul_assoc]
  refine inverts_keyword (fun w => function whole w.line) (fun _ _ _ => rfl) fun w => ?_
  refine (inverts_name _).andThen fun f' hf => ?_
  refine (inverts_params names).andThen fun ps' hps => ?_
  refine (inverts_block hb).before.bind_pure fun b' hb => ?_
  simp only [Stmt.forgetLines, hf, hps, hb]

theorem starts_inExpression {e : Expr} (wf : e.WellFormed) :
    Starts e.rendering (inExpression · = true) := by
  intro ts hts
  obtain ⟨t, hhead, _⟩ := starts_rendering wf ts hts
  exact ⟨t, hhead, holds_rendering wf ts hts t (List.mem_of_mem_head? hhead)⟩

theorem restored_returnValue {e : Option Expr} {line : Nat} (wf : ∀ v ∈ e, v.WellFormed) :
    Restored (.returnValue e line) := by
  refine restored_of_ended rfl ?_
  rw [Stmt.rendering, mul_assoc]
  refine inverts_keyword (fun w => returnValue whole w.line) (fun _ _ _ => rfl) fun w => ?_
  cases e with
  | none =>
    rw [Rendering.optional, one_mul]
    refine .whenNext_none ?_ (leads_word fun _ _ => rfl)
    exact inverts_semicolon.bind_pure fun _ _ => rfl
  | some e =>
    refine .whenNext_some ?_ fun ts hts => ?_
    · refine (inverts_expression (wf e rfl)).bind (fun e' he => ?_) (leads_word fun _ _ => rfl)
      refine inverts_semicolon.bind_pure fun _ _ => ?_
      simp only [Stmt.forgetLines, Option.map_some, he]
    · obtain ⟨t, hhead, ht⟩ := (starts_inExpression (wf e rfl)).mul ts hts
      refine ⟨t, hhead, ?_⟩
      simp_all [inExpression, endsReturn]

/-- A word and a value. -/
theorem inverts_valueStatement {e : Expr} (wf : e.WellFormed) {make : Expr → Stmt} {S : Stmt → Prop}
    (h : ∀ e' : Expr, e'.forgetLines = e.forgetLines → S (make e')) :
    Inverts (valueStatement whole make) (e.rendering * semicolon) anything S := by
  refine (inverts_expression wf).bind (fun e' he => ?_) (leads_word fun _ _ => rfl)
  exact inverts_semicolon.bind_pure fun _ _ => h e' he

theorem restored_throwValue {e : Expr} {line : Nat} (wf : e.WellFormed) :
    Restored (.throwValue e line) := by
  refine restored_of_ended rfl ?_
  rw [Stmt.rendering, mul_assoc]
  refine inverts_keyword (fun w => valueStatement whole (.throwValue · w.line)) (fun _ _ _ => rfl)
    fun w => inverts_valueStatement wf fun e' he => ?_
  simp only [Stmt.forgetLines, he]

theorem restored_importModule {x : String} {line : Nat} : Restored (.importModule x line) := by
  refine restored_of_ended rfl ?_
  rw [Stmt.rendering, mul_assoc]
  refine inverts_keyword (fun w => importModule w.line) (fun _ _ _ => rfl) fun w => ?_
  refine (inverts_name _).andThen fun x' hx => ?_
  refine (inverts_expect (by decide)).bind_pure fun _ _ => ?_
  simp only [Stmt.forgetLines, hx]

theorem restored_breakLoop {line : Nat} : Restored (.breakLoop line) := by
  refine restored_of_ended rfl ?_
  refine inverts_keyword (fun w => lone (.breakLoop w.line)) (fun _ _ _ => rfl) fun w => ?_
  exact inverts_semicolon.bind_pure fun _ _ => rfl

theorem restored_continueLoop {line : Nat} : Restored (.continueLoop line) := by
  refine restored_of_ended rfl ?_
  refine inverts_keyword (fun w => lone (.continueLoop w.line)) (fun _ _ _ => rfl) fun w => ?_
  exact inverts_semicolon.bind_pure fun _ _ => rfl

end Keywords

section Handlers

theorem inverts_catchClause {x : String} {b : Block} (hb : RestoredAll b.statements) :
    Inverts (catchClause whole) (Rendering.parenthesized (identifier x) * b.rendering) anything
      fun clause => clause.1 = x ∧ clause.2.forgetLines = b.forgetLines := by
  simp only [Rendering.parenthesized, mul_assoc]
  refine (inverts_expect (by decide)).andThen fun _ _ => ?_
  refine (inverts_name _).andThen fun x' hx => ?_
  refine (inverts_expect (by decide)).andThen fun _ _ => ?_
  exact (inverts_block hb).bind_pure fun b' hb => ⟨hx, hb⟩

theorem inverts_handlers {h : Handlers} (hbodies : ∀ b ∈ h.bodies, RestoredAll b.statements) :
    Inverts (handlers whole) h.rendering goesOn fun h' => h'.forgetLines = h.forgetLines := by
  cases h with
  | catchOnly x b =>
    rw [Handlers.rendering, mul_assoc]
    refine .after_some (by decide) ?_
    rw [← mul_one (_ * b.rendering)]
    refine (inverts_catchClause (hbodies b (by simp [Handlers.bodies]))).andThen
      fun clause hclause => ?_
    refine .whenNext_none (inverts_pure ?_) (leads_one fun next h => ?_)
    · simp only [Handlers.forgetLines, hclause]
    · exact allowing_mono (fun t ht => by simp_all) next h
  | finallyOnly f =>
    rw [Handlers.rendering]
    refine .whenNext_none ?_ (leads_word_mul fun _ _ => rfl)
    refine .after_some (by decide) ?_
    refine (inverts_block (hbodies f (by simp [Handlers.bodies]))).before.bind_pure fun f' hf => ?_
    simp only [Handlers.forgetLines, hf]
  | catchFinally x b f =>
    rw [Handlers.rendering, mul_assoc, mul_assoc, ← mul_assoc (Rendering.parenthesized _)]
    refine .after_some (by decide) ?_
    refine (inverts_catchClause (hbodies b (by simp [Handlers.bodies]))).andThen
      fun clause hclause => ?_
    refine .after_some (by decide) ?_
    refine (inverts_block (hbodies f (by simp [Handlers.bodies]))).before.bind_pure fun f' hf => ?_
    simp only [Handlers.forgetLines, hclause, hf]

theorem restored_tryBlock {b : Block} {h : Handlers} {line : Nat} (hb : RestoredAll b.statements)
    (hbodies : ∀ b ∈ h.bodies, RestoredAll b.statements) : Restored (.tryBlock b h line) := by
  refine restored_of_compound rfl ?_
  rw [Stmt.rendering, mul_assoc]
  refine inverts_keyword (fun w => tryBlock whole w.line) (fun _ _ _ => rfl) fun w => ?_
  refine (inverts_block hb).andThen fun b' hb => ?_
  refine (inverts_handlers hbodies).bind_pure fun h' hh => ?_
  simp only [Stmt.forgetLines, hb, hh]

end Handlers

section Members

theorem inverts_access (a : Access) : Inverts access? (keyword a.word) anything (· = some a) := by
  rintro ts ⟨t, rfl, _, htext⟩
  have ha : Access.ofWord? t.text = some a := by
    rw [htext]
    cases a <;> rfl
  exact ⟨some a, rfl, fun _ _ => reads_optionally rfl ha (reads_skip t).bind_pure⟩

/-- Neither of the two modifiers comes next. -/
def endsModifiers : Follow :=
  allowing fun t => !t.isText "virtual" && !t.isText "override"

theorem inverts_accept {text : String} :
    Inverts (accept text) (keyword text) anything (· = true) := by
  rintro ts ⟨t, rfl, hkind, rfl⟩
  exact ⟨true, rfl, fun _ _ => reads_accept (isText_self (by simp [hkind]))⟩

theorem inverts_accept_not {text : String} :
    Inverts (accept text) 1 (allowing fun t => !t.isText text) (· = false) := by
  intro ts hts
  rw [Language.mem_one] at hts
  subst hts
  refine ⟨false, rfl, fun next hnext => reads_accept_not ?_⟩
  rintro t rfl
  simpa [allowing] using hnext

theorem inverts_modifiers {v o : Bool} (h : ¬(v = true ∧ o = true)) :
    Inverts modifiers ((if v then keyword "virtual" else 1) * (if o then keyword "override" else 1))
      endsModifiers (· = (v, o)) := by
  have noVirtual (next : Option Token) (h : endsModifiers next) :
      allowing (fun t => !t.isText "virtual") next :=
    allowing_mono (fun t ht => by simp_all) next h
  have noOverride (next : Option Token) (h : endsModifiers next) :
      allowing (fun t => !t.isText "override") next :=
    allowing_mono (fun t ht => by simp_all) next h
  cases v with
  | true =>
    have ho : o = false := by simpa using h
    subst ho
    refine inverts_accept.andThen fun taken htaken => ?_
    rw [htaken]
    exact inverts_pure rfl
  | false =>
    cases o with
    | true =>
      refine inverts_accept_not.bind (fun taken htaken => ?_) (leads_word fun _ _ => rfl)
      rw [htaken]
      exact inverts_accept.before.bind_pure fun o' ho => by rw [ho]
    | false =>
      refine inverts_accept_not.bind (fun taken htaken => ?_) (leads_one noVirtual)
      rw [htaken]
      exact (inverts_accept_not.mono noOverride fun _ => id).bind_pure fun o' ho => by rw [ho]

theorem inverts_method {m : String} {a : Access} {ps : List String} {b : Block} {v o : Bool}
    {line line' : Nat} (names : ∀ x ∈ ps, IsName x) (hb : RestoredAll b.statements) :
    Inverts (method whole a (v, o) line) (identifier m * (parameters ps * b.rendering)) anything
      fun m' => m'.forgetLines = (Member.method m a ps b v o line').forgetLines := by
  refine (inverts_name _).andThen fun m' hm => ?_
  refine (inverts_params names).andThen fun ps' hps => ?_
  refine (inverts_block hb).bind_pure fun b' hb => ?_
  simp only [Member.forgetLines, hm, hps, hb]

theorem inverts_field {x : String} {a : Access} {e : Option Expr} {line line' : Nat}
    (wf : ∀ v ∈ e, v.WellFormed) :
    Inverts (field whole a line) (identifier x * (optional Expr.assignedRendering e * semicolon))
      anything fun m' => m'.forgetLines = (Member.field x a e line').forgetLines := by
  refine (inverts_name _).andThen fun x' hx => ?_
  cases e with
  | none =>
    rw [Rendering.optional, one_mul]
    refine .whenNext_none ?_ (leads_word fun _ _ => rfl)
    refine (inverts_expect (by decide)).bind_pure fun _ _ => ?_
    simp only [Member.forgetLines, Option.map_none, hx]
  | some e =>
    refine inverts_assigned (wf e rfl) (fun e' he => ?_) (leads_word fun _ _ => rfl)
    refine (inverts_expect (by decide)).bind_pure fun _ _ => ?_
    simp only [Member.forgetLines, Option.map_some, hx, he]

theorem inverts_member {m : Member} (proper : m.Proper)
    (hbodies : ∀ b ∈ m.bodies, RestoredAll b.statements) :
    Inverts (member whole) m.rendering anything fun m' => m'.forgetLines = m.forgetLines := by
  cases m with
  | field x a e line =>
    have hne : x ≠ "virtual" ∧ x ≠ "override" ∧ x ≠ "function" :=
      ⟨proper.1.ne (by decide), proper.1.ne (by decide),
        proper.1.ne (by decide)⟩
    simp only [Member.rendering, mul_assoc]
    refine .currentLine starts_some.mul fun line => ?_
    refine (inverts_access a).andThen fun a' ha => ?_
    rw [ha, ← one_mul (identifier x * _)]
    have none : Inverts modifiers 1 endsModifiers (· = (false, false)) := by
      rw [← one_mul 1]
      exact inverts_modifiers (v := false) (o := false) (by simp)
    refine none.bind (fun flags hflags => ?_) (leads_word_mul fun _ _ => ?_)
    · refine .whenNext_none (inverts_field proper.2) (leads_word_mul fun _ _ => ?_)
      simp [allowing, Token.isText, hne]
    · simp [endsModifiers, allowing, Token.isText, hne]
  | method m a ps b v o line =>
    rw [Member.rendering, mul_assoc, mul_assoc, mul_assoc, mul_assoc, mul_assoc]
    refine .currentLine starts_some.mul fun line => ?_
    refine (inverts_access a).andThen fun a' ha => ?_
    rw [ha, ← mul_assoc]
    refine (inverts_modifiers proper.2.2).bind (fun flags hflags => ?_)
      (leads_word_mul fun _ _ => rfl)
    rw [hflags]
    refine .after_some (by decide) ?_
    exact (inverts_method proper.2.1 (hbodies b (by simp [Member.bodies]))).bind_pure fun _ => id

theorem renderingAll_members_eq_prod (ms : List Member) :
    Member.renderingAll ms = (ms.map Member.rendering).prod := by
  induction ms with
  | nil => rfl
  | cons m ms ih => rw [Member.renderingAll, ih, List.map_cons, List.prod_cons]

theorem starts_member (m : Member) : Starts m.rendering fun t => t.isText "\x7d" = false := by
  cases m with
  | field x a e line =>
    exact (starts_word fun _ _ => by cases a <;> rfl).mul.mul.mul
  | method m a ps b v o line =>
    exact (starts_word fun _ _ => by cases a <;> rfl).mul.mul.mul.mul.mul.mul

theorem inverts_members {ms : List Member} (proper : ∀ m ∈ ms, m.Proper)
    (hbodies : ∀ b ∈ ms.flatMap Member.bodies, RestoredAll b.statements) :
    Inverts (Parser.inBraces (member whole)) (Rendering.inBraces (Member.renderingAll ms)) anything
      fun ms' => Member.forgetLinesAll ms' = Member.forgetLinesAll ms := by
  simp only [renderingAll_members_eq_prod, Member.forgetLinesAll_eq_map]
  refine (inverts_inBraces (fun m hm => inverts_member (proper m hm) fun b hb => ?_) fun m _ =>
    starts_member m).mono (fun _ => id) fun _ => map_eq_iff_forall₂.mpr
  exact hbodies b (List.mem_flatMap.mpr ⟨m, hm, hb⟩)

theorem inverts_signature {s : Signature} (proper : s.Proper) :
    Inverts signature s.rendering anything fun s' => s'.forgetLines = s.forgetLines := by
  obtain ⟨m, ps, line⟩ := s
  simp only [Signature.rendering, mul_assoc]
  refine .currentLine starts_some.mul fun line => ?_
  refine .optionally_none ?_ (leads_word_mul fun _ _ => rfl)
  refine (inverts_expect (by decide)).andThen fun _ _ => ?_
  refine (inverts_name _).andThen fun m' hm => ?_
  refine (inverts_params proper.2).andThen fun ps' hps => ?_
  refine inverts_semicolon.bind_pure fun _ _ => ?_
  simp only [Signature.forgetLines, hm, hps]

theorem restored_interfaceDecl {i : String} {ms : List Signature} {line : Nat}
    (proper : ∀ m ∈ ms, m.Proper) : Restored (.interfaceDecl i ms line) := by
  refine restored_of_compound rfl ?_
  rw [Stmt.rendering, mul_assoc]
  refine inverts_keyword (fun w => interfaceDecl w.line) (fun _ _ _ => rfl) fun w => ?_
  refine (inverts_name _).andThen fun i' hi => ?_
  refine (inverts_inBraces (fun m hm => inverts_signature (proper m hm)) fun m _ =>
    (starts_word fun _ _ => rfl).mul.mul.mul).before.bind_pure fun ms' hms => ?_
  simp only [Stmt.forgetLines, hi, map_eq_iff_forall₂.mpr hms]

/-- What the interfaces of a class stand before. -/
def endsInterfaces : Follow :=
  allowing fun t => !t.isText "implements" && !t.isText ","

theorem inverts_interfaces (is : List String) :
    Inverts (after "implements" (commaSeparated (name .interface))) (implemented is) endsInterfaces
      fun found => found.getD [] = is := by
  rw [← bind_pure (after _ _)]
  cases is with
  | nil =>
    refine .whenNext_none (inverts_pure rfl) (leads_one fun next h => ?_)
    exact allowing_mono (fun t ht => by simp_all) next h
  | cons i is =>
    refine .after_some (by decide) ?_
    refine ((inverts_commaSeparated (fun i _ => inverts_name _) fun _ _ => trivial).mono
      (fun next h => ⟨trivial, ?_⟩) fun _ => id).bind_pure fun is' his => eq_of_forall₂ his
    exact allowing_mono (fun t ht => by simp_all) next h

theorem inverts_base (base : Option String) :
    Inverts (after "extends" (name .baseClass))
      (optional (fun b => keyword "extends" * identifier b) base)
      (allowing fun t => !t.isText "extends") (· = base) := by
  rw [← bind_pure (after _ _)]
  cases base with
  | none => exact .whenNext_none (inverts_pure rfl) (leads_one fun _ => id)
  | some b =>
    refine .after_some (by decide) ?_
    exact (inverts_name _).before.bind_pure fun b' hb => by rw [hb]

theorem leads_inBraces {l : Language Token} {F G : Follow}
    (h : ∀ line column, G (some ⟨.lbrace, "\x7b", line, column⟩)) :
    Leads (Rendering.inBraces l) F G := by
  rw [Rendering.inBraces, mul_assoc]
  exact leads_word_mul h

theorem leads_implemented {is : List String} {l : Language Token} {F G : Follow} (hl : Leads l F G)
    (h : ∀ line column, G (some ⟨.keyword, "implements", line, column⟩)) :
    Leads (implemented is * l) F G := by
  cases is with
  | nil => rwa [implemented, one_mul]
  | cons i is =>
    rw [implemented, mul_assoc]
    exact leads_word_mul h

theorem restored_classDecl {c : String} {base : Option String} {is : List String} {ms : List Member}
    {line : Nat} (proper : ∀ m ∈ ms, m.Proper)
    (hbodies : ∀ b ∈ ms.flatMap Member.bodies, RestoredAll b.statements) :
    Restored (.classDecl c base is ms line) := by
  refine restored_of_compound rfl ?_
  rw [Stmt.rendering, mul_assoc, mul_assoc, mul_assoc]
  refine inverts_keyword (fun w => classDecl whole w.line) (fun _ _ _ => rfl) fun w => ?_
  refine (inverts_name _).andThen fun c' hc => ?_
  refine (inverts_base base).bind (fun base' hbase => ?_)
    (leads_implemented (leads_inBraces fun _ _ => rfl) fun _ _ => rfl)
  refine (inverts_interfaces is).bind (fun found hfound => ?_) (leads_inBraces fun _ _ => rfl)
  refine (inverts_members proper hbodies).before.bind_pure fun ms' hms => ?_
  simp only [Stmt.forgetLines, hc, hbase, hfound, hms]

end Members

section Statements

variable {p : Inner}

/-- A statement that starts as an expression does, and not with a `print` of its own. -/
theorem statementStep_of_simple {t : Token} {tail : List Token}
    (hkeyword : t.kind = .keyword → t.text ∈ expressionWords)
    (hprint : t.kind = .identifier → t.text = "print" → NamesPrint tail) :
    statementStep p (t :: tail) = simpleStatement p (t :: tail) := by
  by_cases ht : t.kind = .keyword
  · rw [statementStep_of_keyword ht rfl, keywordStatement]
    have hwords := hkeyword ht
    simp only [expressionWords, List.mem_cons, List.not_mem_nil, or_false] at hwords
    rcases hwords with h | h | h | h | h | h <;>
      simp [afterStatementWord?, pastFirst, expressionWords, h]
  by_cases hname : t.kind = .identifier
  · by_cases htext : t.text = "print"
    · obtain ⟨u, hu, hcontinues⟩ := hprint hname htext
      rw [statementStep_of_name hname]
      simp [startsPrint, hu, hcontinues]
    · exact statementStep_of_not_print hname htext rfl
  · exact statementStep_of_symbol ht hname rfl

theorem NamesPrint.append {tail : List Token} (h : NamesPrint tail) (rest : List Token) :
    NamesPrint (tail ++ rest) := by
  obtain ⟨u, hu, hcontinues⟩ := h
  exact ⟨u, by rw [List.head?_append, hu, Option.some_or], hcontinues⟩

theorem starts_simple {s : Simple} (wf : s.WellFormed) :
    Starts s.rendering (inExpression · = true) := by
  cases s with
  | assign x e line => exact (starts_word (inExpression_name wf.1)).mul
  | assignMember e x v line => exact (starts_inExpression (Expr.WellFormed.member wf.1 wf.2.1)).mul
  | expr e line => exact starts_inExpression wf

/-- A `print` at the start of a plain simple statement is a name like any other. -/
theorem namesPrint_simple {s : Simple} (wf : s.WellFormed) (plain : (Stmt.simple s).Plain)
    {t : Token} (hkind : t.kind = .identifier) (htext : t.text = "print") :
    ∀ tail, t :: tail ∈ s.rendering → NamesPrint tail := by
  have ofExpression {e : Expr} (wf : e.WellFormed) (hprint : e.startsPrint = false)
      (tail : List Token) (hts : t :: tail ∈ e.rendering) : NamesPrint tail := by
    rcases namesPrint_or wf hkind htext tail hts with h | ⟨hstarts, _⟩
    · exact h
    · rw [hprint] at hstarts
      cases hstarts
  intro tail hts
  cases s with
  | assign x e line =>
    obtain ⟨_, ⟨_, rfl, _, _⟩, w, hw, hcons⟩ := Language.mem_mul.mp hts
    cases hcons
    exact (starts_word fun _ _ => rfl).mul w hw
  | assignMember e x v line =>
    obtain ⟨u, hu, w, _, hcons⟩ := Language.mem_mul.mp hts
    have wf : (Expr.member e x 0).WellFormed := .member wf.1 wf.2.1
    obtain ⟨_, hhead, _⟩ := starts_rendering wf u hu
    obtain ⟨u, rfl⟩ := List.head?_eq_some_iff.mp hhead
    cases hcons
    exact (ofExpression wf rfl u hu).append w
  | expr e line => exact ofExpression wf plain tail hts

theorem restored_simple {s : Simple} (wf : s.WellFormed) (plain : (Stmt.simple s).Plain) :
    Restored (.simple s) := by
  have hread : Inverts (simpleStatement whole) (s.rendering * semicolon) anything
      fun s' => s'.forgetLines = (Stmt.simple s).forgetLines := by
    refine (inverts_simple wf).bind (fun s' hs => ?_) (leads_word fun _ _ => rfl)
    refine inverts_semicolon.bind_pure fun _ _ => ?_
    simp only [Stmt.forgetLines, hs]
  refine restored_of_ended rfl fun ts hts => ?_
  obtain ⟨s', hs, hread⟩ := hread ts hts
  obtain ⟨u, hu, v, _, rfl⟩ := Language.mem_mul.mp hts
  refine ⟨s', hs, fun next hnext rest hrest => ?_⟩
  rw [← hread next hnext rest hrest, wholeStatement_eq, List.append_assoc]
  obtain ⟨t, hhead, ht⟩ := starts_simple wf u hu
  obtain ⟨u, rfl⟩ := List.head?_eq_some_iff.mp hhead
  exact statementStep_of_simple (mem_expressionWords ht) fun hkind htext =>
    (namesPrint_simple wf plain hkind htext u hu).append (v ++ rest)

theorem restored_print {e : Expr} {line : Nat} (wf : e.WellFormed)
    (plain : (Stmt.print e line).Plain) : Restored (.print e line) := by
  refine restored_of_ended rfl fun ts hts => ?_
  rw [Stmt.rendering, mul_assoc] at hts
  obtain ⟨_, ⟨t, rfl, hkind, htext⟩, v, hv, rfl⟩ := Language.mem_mul.mp hts
  have hvalue : Inverts (valueStatement whole (.print · t.line)) (e.rendering * semicolon) anything
      fun s' => s'.forgetLines = (Stmt.print e line).forgetLines :=
    inverts_valueStatement wf fun e' he => by simp only [Stmt.forgetLines, he]
  obtain ⟨s', hs, hread⟩ := hvalue v hv
  obtain ⟨u, hhead, _, hcontinues⟩ := (starts_rendering wf).mul v hv
  have hu : continuesName u = false := by
    refine Bool.eq_false_iff.mpr fun h => ?_
    rw [show e.startsParen = false from plain] at hcontinues
    cases hcontinues h
  refine ⟨s', hs, fun next hnext rest hrest => ?_⟩
  have hskip : Reads (do skip; valueStatement whole (.print · t.line)) ([t] ++ v) next (.ok s') :=
    (reads_skip t).bind (hread next hnext)
  rw [← hskip rest hrest, wholeStatement_eq, List.append_assoc, List.singleton_append,
    statementStep_of_name hkind]
  simp [startsPrint, hkind, htext, hhead, hu]

theorem startsStatement_of_inExpression {t : Token} (h : inExpression t = true) :
    startsStatement t = true := by
  simp only [inExpression, Bool.and_eq_true] at h
  simp only [startsStatement, Bool.and_eq_true]
  exact ⟨⟨⟨h.1.1.1.2, h.1.2⟩, h.2⟩, h.1.1.2⟩

theorem starts_statement {s : Stmt} (proper : s.Proper) :
    Starts s.rendering (startsStatement · = true) := by
  cases s with
  | simple s =>
    intro ts hts
    obtain ⟨t, hhead, ht⟩ := starts_simple proper ts hts
    exact ⟨t, hhead, startsStatement_of_inExpression ht⟩
  | print e line => exact (starts_word fun _ _ => rfl).mul
  | conditional c t e line =>
    cases e with
    | none => exact (starts_word fun _ _ => rfl).mul.mul
    | some e => exact (starts_word fun _ _ => rfl).mul.mul.mul
  | whileLoop c b line => exact (starts_word fun _ _ => rfl).mul.mul
  | forLoop i c u b line => exact (starts_word fun _ _ => rfl).mul.mul
  | breakLoop line => exact starts_word fun _ _ => rfl
  | continueLoop line => exact starts_word fun _ _ => rfl
  | function f ps b line => exact (starts_word fun _ _ => rfl).mul.mul.mul
  | returnValue e line => exact (starts_word fun _ _ => rfl).mul
  | classDecl c base is ms line => exact (starts_word fun _ _ => rfl).mul.mul.mul.mul
  | interfaceDecl i ms line => exact (starts_word fun _ _ => rfl).mul.mul
  | tryBlock b h line => exact (starts_word fun _ _ => rfl).mul.mul
  | throwValue e line => exact (starts_word fun _ _ => rfl).mul
  | importModule m line => exact (starts_word fun _ _ => rfl).mul

theorem restored_statement {s : Stmt} (h : s.Everywhere fun s => s.Proper ∧ s.Plain) :
    Restored s := by
  induction h with
  | @intro s here inside ih =>
    obtain ⟨proper, plain⟩ := here
    have bodies (b : Block) (hb : b ∈ s.bodies) : RestoredAll b.statements := by
      intro s' hs
      exact ⟨ih b hb s' hs, starts_statement (inside b hb s' hs).here.1⟩
    cases s with
    | simple s => exact restored_simple proper plain
    | print e line => exact restored_print proper plain
    | conditional c t e line =>
      exact restored_conditional proper (bodies t (by simp [Stmt.bodies]))
        fun e he => bodies e (by simp_all [Stmt.bodies])
    | whileLoop c b line => exact restored_whileLoop proper (bodies b (by simp [Stmt.bodies]))
    | forLoop i c u b line =>
      exact restored_forLoop proper.1 proper.2.1 proper.2.2 (bodies b (by simp [Stmt.bodies]))
    | breakLoop line => exact restored_breakLoop
    | continueLoop line => exact restored_continueLoop
    | function f ps b line => exact restored_function proper.2 (bodies b (by simp [Stmt.bodies]))
    | returnValue e line => exact restored_returnValue proper
    | classDecl c base is ms line => exact restored_classDecl proper.2.2.2 bodies
    | interfaceDecl i ms line => exact restored_interfaceDecl proper.2
    | tryBlock b h line =>
      exact restored_tryBlock (bodies b (by simp [Stmt.bodies]))
        fun b hb => bodies b (by simp [Stmt.bodies, hb])
    | throwValue e line => exact restored_throwValue proper
    | importModule m line => exact restored_importModule

theorem restoredAll {ss : List Stmt} (wf : ∀ s ∈ ss, s.Everywhere Stmt.Proper)
    (plain : ∀ s ∈ ss, s.Everywhere Stmt.Plain) : RestoredAll ss := by
  intro s hs
  exact ⟨restored_statement ((wf s hs).and (plain s hs)), starts_statement (wf s hs).here⟩

end Statements

end ClassScript.Parser
