import ClassScript.Proofs.CodeDiscipline
import ClassScript.Proofs.ParserSoundness

/-!
# The lines of the nodes of a tree

A tree is written as a list of tokens. So are the statements and expressions anywhere inside of it,
as tokens among those, and each takes its line from one of its own tokens. Hence every line that is
found in the tree of a source is the line of a token of the source.

To stand inside of given statements is a discipline: code runs only code that stands inside of what
has been parsed.
-/

namespace ClassScript

open ClassScript.Derivation

namespace Derivation

variable {α : Type} {Item : α → List Token → Prop} {as : List α} {ts : List Token} {a : α}

theorem Sequence.item (h : Sequence Item as ts) (ha : a ∈ as) : ∃ ts', Item a ts' ∧ ts' ⊆ ts := by
  induction h with
  | nil => cases ha
  | cons first _ ih =>
    rcases List.mem_cons.mp ha with rfl | ha
    · exact ⟨_, first, List.subset_append_left _ _⟩
    · obtain ⟨ts', hitem, sub⟩ := ih ha
      exact ⟨ts', hitem, List.Subset.trans sub (List.subset_append_right _ _)⟩

theorem Listed.item (h : Listed Item as ts) (ha : a ∈ as) : ∃ ts', Item a ts' ∧ ts' ⊆ ts := by
  induction h with
  | one first => exact List.mem_singleton.mp ha ▸ ⟨_, first, List.Subset.refl _⟩
  | more first _ _ ih =>
    rcases List.mem_cons.mp ha with rfl | ha
    · exact ⟨_, first, List.subset_append_left _ _⟩
    · obtain ⟨ts', hitem, sub⟩ := ih ha
      refine ⟨ts', hitem, fun t ht => ?_⟩
      exact List.mem_append_right _ (List.mem_cons_of_mem _ (sub ht))

theorem Parenthesized.item (h : Parenthesized Item as ts) (ha : a ∈ as) :
    ∃ ts', Item a ts' ∧ ts' ⊆ ts := by
  cases h with
  | empty _ _ => cases ha
  | items _ listed _ =>
    obtain ⟨ts', hitem, sub⟩ := listed.item ha
    refine ⟨ts', hitem, fun t ht => ?_⟩
    exact List.mem_cons_of_mem _ (List.mem_append_left _ (sub ht))

theorem Separated.item (h : Separated Item as ts) (ha : a ∈ as) :
    ∃ ts', Item a ts' ∧ ts' ⊆ ts := by
  induction h with
  | nil => cases ha
  | cons first _ _ ih =>
    rcases List.mem_cons.mp ha with rfl | ha
    · exact ⟨_, first, List.subset_append_left _ _⟩
    · obtain ⟨ts', hitem, sub⟩ := ih ha
      refine ⟨ts', hitem, fun t ht => ?_⟩
      exact List.mem_append_right _ (List.mem_append_right _ (sub ht))

/-- A phrase gets its line from a token of its own. -/
theorem exists_firstLine {ts : List Token} (h : ts ≠ []) : ∃ t ∈ ts, t.line = firstLine ts := by
  cases ts with
  | nil => exact absurd rfl h
  | cons t ts => exact ⟨t, List.mem_cons_self, rfl⟩

end Derivation

/-- The expression is written with some of the tokens. -/
def Expr.Written (ts : List Token) (e : Expr) : Prop :=
  ∃ rank ts', e.Derives rank ts' ∧ ts' ⊆ ts

/-- The statement is written with some of the tokens. -/
def Stmt.Written (ts : List Token) (s : Stmt) : Prop :=
  ∃ ts', s.Derives ts' ∧ ts' ⊆ ts

theorem Expr.Written.mono {ts ts' : List Token} {e : Expr} (h : e.Written ts) (sub : ts ⊆ ts') :
    e.Written ts' := by
  obtain ⟨rank, inner, derives, hinner⟩ := h
  exact ⟨rank, inner, derives, List.Subset.trans hinner sub⟩

theorem Stmt.Written.mono {ts ts' : List Token} {s : Stmt} (h : s.Written ts) (sub : ts ⊆ ts') :
    s.Written ts' := by
  obtain ⟨inner, derives, hinner⟩ := h
  exact ⟨inner, derives, List.Subset.trans hinner sub⟩

/-- The line of an expression, and the expressions right inside of it. Parentheses and ranks do not
show in the tree: the induction is on the number of tokens, and then on the rank. -/
theorem Expr.Derives.parts {rank : Nat} {e : Expr} {ts : List Token} (h : e.Derives rank ts) :
    (∃ t ∈ ts, t.line = e.line) ∧ ∀ e' ∈ e.operands, e'.Written ts := by
  have argument {args : List Expr} {inner ts : List Token}
      (hargs : Parenthesized (Expr.Derives Expr.topRank) args inner) (sub : inner ⊆ ts) :
      ∀ e' ∈ args, e'.Written ts := by
    intro e' he'
    obtain ⟨ts', derives, hsub⟩ := hargs.item he'
    exact ⟨_, ts', derives, List.Subset.trans hsub sub⟩
  induction hlength : ts.length using Nat.strong_induction_on generalizing rank e ts with
  | _ length shorter =>
    induction rank generalizing e ts with
    | zero =>
      cases h with
      | number _ | text _ | boolean _ | null _ | this _ | var _ | new _ _ | newCalled _ _ _ _ =>
        exact ⟨⟨_, List.mem_cons_self, rfl⟩, fun _ he' => nomatch he'⟩
      | call _ hargs =>
        exact ⟨⟨_, List.mem_cons_self, rfl⟩, argument hargs (List.subset_cons_self _ _)⟩
      | superCall _ _ _ hargs =>
        exact ⟨⟨_, List.mem_cons_self, rfl⟩, argument hargs fun t ht => by simp [ht]⟩
      | @enclosed l r _ inner _ derives _ =>
        have fewer : inner.length < length := by
          simp only [List.length_cons, List.length_append] at hlength
          omega
        have sub : inner ⊆ l :: (inner ++ [r]) := fun t ht => by simp [ht]
        obtain ⟨⟨t, ht, hline⟩, operands⟩ := shorter _ fewer derives rfl
        exact ⟨⟨t, sub ht, hline⟩, fun e' he' => (operands e' he').mono sub⟩
      | member target _ _ =>
        refine ⟨⟨_, by simp, rfl⟩, fun e' he' => ?_⟩
        cases List.mem_singleton.mp he'
        exact ⟨_, _, target, List.subset_append_left _ _⟩
      | methodCall target _ _ hargs =>
        refine ⟨⟨_, by simp, rfl⟩, fun e' he' => ?_⟩
        rcases List.mem_cons.mp he' with rfl | he'
        · exact ⟨_, _, target, List.subset_append_left _ _⟩
        · exact argument hargs (fun t ht => by simp [ht]) e' he'
    | succ rank lower =>
      cases h with
      | unary _ operand =>
        refine ⟨⟨_, List.mem_cons_self, rfl⟩, fun e' he' => ?_⟩
        cases List.mem_singleton.mp he'
        exact ⟨_, _, operand, List.subset_cons_self _ _⟩
      | binary left _ right =>
        refine ⟨⟨_, by simp, rfl⟩, fun e' he' => ?_⟩
        rcases List.mem_pair.mp he' with rfl | rfl
        · exact ⟨_, _, left, List.subset_append_left _ _⟩
        · exact ⟨_, _, right, fun t ht => by simp [ht]⟩
      | tighter derives => exact lower derives hlength

theorem Expr.Written.operand {ts : List Token} {e e' : Expr} (h : e.Written ts)
    (he' : e' ∈ e.operands) : e'.Written ts := by
  obtain ⟨rank, inner, derives, sub⟩ := h
  exact (derives.parts.2 e' he').mono sub

theorem Expr.Written.line {ts : List Token} {e : Expr} (h : e.Written ts) :
    ∃ t ∈ ts, t.line = e.line := by
  obtain ⟨rank, inner, derives, sub⟩ := h
  obtain ⟨t, ht, hline⟩ := derives.parts.1
  exact ⟨t, sub ht, hline⟩

theorem Expr.DerivesCondition.written {c : Expr} {ts : List Token} (h : c.DerivesCondition ts) :
    c.Written ts := by
  cases h with
  | mk _ derives _ => exact ⟨_, _, derives, fun t ht => by simp [ht]⟩

namespace Simple.Derives

variable {s : Simple} {ts : List Token}

theorem line (h : s.Derives ts) : ∃ t ∈ ts, t.line = s.line := by
  cases h with
  | assign _ _ _ => exact ⟨_, List.mem_cons_self, rfl⟩
  | assignMember target _ _ =>
    obtain ⟨t, ht, hline⟩ := exists_firstLine target.ne_nil
    exact ⟨t, List.mem_append_left _ ht, hline⟩
  | expr derives => exact exists_firstLine derives.ne_nil

theorem exprs (h : s.Derives ts) : ∀ e ∈ s.exprs, e.Written ts := by
  intro e he
  cases h with
  | assign _ _ value =>
    cases List.mem_singleton.mp he
    exact ⟨_, _, value, fun t ht => by simp [ht]⟩
  | assignMember target _ value =>
    rcases List.mem_pair.mp he with rfl | rfl
    · exact (target.parts.2 _ (List.mem_singleton_self _)).mono (List.subset_append_left _ _)
    · exact ⟨_, _, value, fun t ht => by simp [ht]⟩
  | expr derives =>
    cases List.mem_singleton.mp he
    exact ⟨_, _, derives, List.Subset.refl _⟩

end Simple.Derives

theorem Block.Derives.statement {b : Block} {ts : List Token} (h : b.Derives ts) {s : Stmt}
    (hs : s ∈ b.statements) : s.Written ts := by
  cases h with
  | braces _ _ separated _ =>
    obtain ⟨ts', derives, sub⟩ := separated.item hs
    exact ⟨ts', derives, fun t ht => by simp [sub ht]⟩
  | single derives =>
    cases List.mem_singleton.mp hs
    exact ⟨_, derives, List.Subset.refl _⟩

theorem Handlers.Derives.body {h : Handlers} {ts : List Token} (hd : h.Derives ts) {b : Block}
    (hb : b ∈ h.bodies) : ∃ ts', b.Derives ts' ∧ ts' ⊆ ts := by
  cases hd with
  | catchOnly _ _ _ _ body =>
    cases List.mem_singleton.mp hb
    exact ⟨_, body, fun t ht => by simp [ht]⟩
  | finallyOnly _ body =>
    cases List.mem_singleton.mp hb
    exact ⟨_, body, fun t ht => by simp [ht]⟩
  | catchFinally _ _ _ _ caught _ final =>
    rcases List.mem_pair.mp hb with rfl | rfl
    · exact ⟨_, caught, fun t ht => by simp [ht]⟩
    · exact ⟨_, final, fun t ht => by simp [ht]⟩

namespace Member.Derives

variable {m : Member} {ts : List Token}

theorem body (h : m.Derives ts) {b : Block} (hb : b ∈ m.bodies) :
    ∃ ts', b.Derives ts' ∧ ts' ⊆ ts := by
  cases h with
  | method _ _ _ _ _ body =>
    cases List.mem_singleton.mp hb
    exact ⟨_, body, fun t ht => by simp [ht]⟩
  | field _ _ _ _ => cases hb
  | fieldValue _ _ _ _ _ _ => cases hb

theorem expr (h : m.Derives ts) {e : Expr} (he : e ∈ m.exprs) : e.Written ts := by
  cases h with
  | method _ _ _ _ _ _ => cases he
  | field _ _ _ _ => cases he
  | fieldValue _ _ _ _ value _ =>
    cases List.mem_singleton.mp he
    exact ⟨_, _, value, fun t ht => by simp [ht]⟩

end Member.Derives

namespace Stmt.Derives

variable {s : Stmt} {ts : List Token}

theorem line (h : s.Derives ts) {n : Nat} (hn : n ∈ s.lines) : ∃ t ∈ ts, t.line = n := by
  cases h with
  | simple hs _ =>
    cases List.mem_singleton.mp hn
    obtain ⟨t, ht, hline⟩ := hs.line
    exact ⟨t, List.mem_append_left _ ht, hline⟩
  | forLoop _ _ initializer _ _ _ iterator _ _ =>
    simp only [lines, List.mem_cons, List.not_mem_nil, or_false] at hn
    rcases hn with rfl | rfl | rfl
    · exact ⟨_, List.mem_cons_self, rfl⟩
    · obtain ⟨t, ht, hline⟩ := initializer.line
      exact ⟨t, by simp [ht], hline⟩
    · obtain ⟨t, ht, hline⟩ := iterator.line
      exact ⟨t, by simp [ht], hline⟩
  | _ =>
    cases List.mem_singleton.mp hn
    exact ⟨_, List.mem_cons_self, rfl⟩

theorem expr (h : s.Derives ts) {e : Expr} (he : e ∈ s.exprs) : e.Written ts := by
  cases h with
  | simple hs _ => exact (hs.exprs e he).mono (List.subset_append_left _ _)
  | print _ _ value _ =>
    cases List.mem_singleton.mp he
    refine ⟨_, _, value, fun t ht => ?_⟩
    rcases List.mem_cons.mp ht with rfl | ht <;> simp [*]
  | returnValue _ value _ =>
    cases List.mem_singleton.mp he
    exact ⟨_, _, value, fun t ht => by simp [ht]⟩
  | throwValue _ value _ =>
    cases List.mem_singleton.mp he
    exact ⟨_, _, value, fun t ht => by simp [ht]⟩
  | conditional _ condition _ =>
    cases List.mem_singleton.mp he
    exact condition.written.mono fun t ht => by simp [ht]
  | conditionalElse _ condition _ _ _ =>
    cases List.mem_singleton.mp he
    exact condition.written.mono fun t ht => by simp [ht]
  | whileLoop _ condition _ =>
    cases List.mem_singleton.mp he
    exact condition.written.mono fun t ht => by simp [ht]
  | forLoop _ _ initializer _ condition _ iterator _ _ =>
    rcases List.mem_cons.mp he with rfl | he
    · exact ⟨_, _, condition, fun t ht => by simp [ht]⟩
    · rcases List.mem_append.mp he with he | he
      · exact (initializer.exprs e he).mono fun t ht => by simp [ht]
      · exact (iterator.exprs e he).mono fun t ht => by simp [ht]
  | classDecl _ _ _ _ _ members _ =>
    obtain ⟨m, hm, he⟩ := List.mem_flatMap.mp he
    obtain ⟨ts', derives, sub⟩ := members.item hm
    exact (derives.expr he).mono fun t ht => by simp [sub ht]
  | _ => cases he

theorem body (h : s.Derives ts) {b : Block} (hb : b ∈ s.bodies) :
    ∃ ts', b.Derives ts' ∧ ts' ⊆ ts := by
  cases h with
  | conditional _ _ body =>
    cases List.mem_singleton.mp hb
    exact ⟨_, body, fun t ht => by simp [ht]⟩
  | conditionalElse _ _ body _ other =>
    rcases List.mem_pair.mp hb with rfl | rfl
    · exact ⟨_, body, fun t ht => by simp [ht]⟩
    · exact ⟨_, other, fun t ht => by simp [ht]⟩
  | whileLoop _ _ body =>
    cases List.mem_singleton.mp hb
    exact ⟨_, body, fun t ht => by simp [ht]⟩
  | forLoop _ _ _ _ _ _ _ _ body =>
    cases List.mem_singleton.mp hb
    exact ⟨_, body, fun t ht => by simp [ht]⟩
  | function _ _ _ body =>
    cases List.mem_singleton.mp hb
    exact ⟨_, body, fun t ht => by simp [ht]⟩
  | classDecl _ _ _ _ _ members _ =>
    obtain ⟨m, hm, hb⟩ := List.mem_flatMap.mp hb
    obtain ⟨ts', derives, sub⟩ := members.item hm
    obtain ⟨ts'', hbody, sub'⟩ := derives.body hb
    exact ⟨ts'', hbody, fun t ht => by simp [sub (sub' ht)]⟩
  | tryBlock _ body handlers =>
    rcases List.mem_cons.mp hb with rfl | hb
    · exact ⟨_, body, fun t ht => by simp [ht]⟩
    · obtain ⟨ts', hbody, sub⟩ := handlers.body hb
      exact ⟨ts', hbody, fun t ht => by simp [sub ht]⟩
  | _ => cases hb

end Stmt.Derives

theorem Stmt.Written.body {ts : List Token} {s s' : Stmt} {b : Block} (h : s.Written ts)
    (hb : b ∈ s.bodies) (hs' : s' ∈ b.statements) : s'.Written ts := by
  obtain ⟨inner, derives, sub⟩ := h
  obtain ⟨ts', hbody, sub'⟩ := derives.body hb
  exact (hbody.statement hs').mono (List.Subset.trans sub' sub)

theorem Stmt.Written.expr {ts : List Token} {s : Stmt} {e : Expr} (h : s.Written ts)
    (he : e ∈ s.exprs) : e.Written ts := by
  obtain ⟨inner, derives, sub⟩ := h
  exact (derives.expr he).mono sub

theorem Stmt.Written.line {ts : List Token} {s : Stmt} {n : Nat} (h : s.Written ts)
    (hn : n ∈ s.lines) : ∃ t ∈ ts, t.line = n := by
  obtain ⟨inner, derives, sub⟩ := h
  obtain ⟨t, ht, hline⟩ := derives.line hn
  exact ⟨t, sub ht, hline⟩

/-- The statement is one of the given ones, or stands anywhere inside of one. -/
inductive Stmt.Within (roots : Stmt → Prop) : Stmt → Prop
  | root {s : Stmt} : roots s → Within roots s
  | body {s s' : Stmt} {b : Block} :
    Within roots s → b ∈ s.bodies → s' ∈ b.statements → Within roots s'

/-- The expression stands anywhere inside of one of the given statements. -/
inductive Expr.Within (roots : Stmt → Prop) : Expr → Prop
  | direct {s : Stmt} {e : Expr} : s.Within roots → e ∈ s.exprs → Within roots e
  | operand {e e' : Expr} : Within roots e → e' ∈ e.operands → Within roots e'

namespace Stmt.Within

variable {roots roots' : Stmt → Prop} {s : Stmt}

theorem exists_root (h : s.Within roots) : ∃ d, roots d ∧ s.Within (· = d) := by
  induction h with
  | root h => exact ⟨_, h, .root rfl⟩
  | body _ hb hs ih =>
    obtain ⟨d, hd, within⟩ := ih
    exact ⟨d, hd, .body within hb hs⟩

theorem trans (h : s.Within roots) (sub : ∀ d, roots d → d.Within roots') : s.Within roots' := by
  induction h with
  | root h => exact sub _ h
  | body _ hb hs ih => exact .body ih hb hs

theorem written {ts : List Token} (h : s.Within roots) (hroots : ∀ d, roots d → d.Written ts) :
    s.Written ts := by
  induction h with
  | root h => exact hroots _ h
  | body _ hb hs ih => exact ih.body hb hs

end Stmt.Within

namespace Expr.Within

variable {roots roots' : Stmt → Prop} {e : Expr}

theorem exists_root (h : e.Within roots) : ∃ d, roots d ∧ e.Within (· = d) := by
  induction h with
  | direct h he =>
    obtain ⟨d, hd, within⟩ := h.exists_root
    exact ⟨d, hd, .direct within he⟩
  | operand _ he ih =>
    obtain ⟨d, hd, within⟩ := ih
    exact ⟨d, hd, .operand within he⟩

theorem trans (h : e.Within roots) (sub : ∀ d, roots d → d.Within roots') : e.Within roots' := by
  induction h with
  | direct h he => exact .direct (h.trans sub) he
  | operand _ he ih => exact .operand ih he

theorem written {ts : List Token} (h : e.Within roots) (hroots : ∀ d, roots d → d.Written ts) :
    e.Written ts := by
  induction h with
  | direct h he => exact (h.written hroots).expr he
  | operand _ he ih => exact ih.operand he

end Expr.Within

/-- To stand inside of the given statements. -/
def codeWithin (roots : Stmt → Prop) : Discipline where
  stmt _ s := s.Within roots
  expr e := e.Within roots
  cause _ := True
  raises := True
  exprs_of h _ he := .direct h he
  operands_of h _ he := .operand h he
  inside h _ hb _ hs := .body h hb hs
  throws _ := trivial
  control _ _ := Or.inr fun _ => trivial
  ordinary _ := trivial

/-- The statements of a text at its top level, parsed with any limit on the depth. -/
def topLevel (text : String) (s : Stmt) : Prop :=
  ∃ depth p, parseSource depth text = .ok p ∧ s ∈ p.statements

/-- There is a token of the text on the line. -/
def HasLine (text : String) (n : Nat) : Prop :=
  ∃ ts, tokenize text = .ok ts ∧ ∃ t ∈ ts, t.line = n

theorem written_of_topLevel {text : String} {s : Stmt} (h : topLevel text s) :
    ∃ ts, tokenize text = .ok ts ∧ s.Written ts := by
  obtain ⟨depth, p, hparse, hs⟩ := h
  obtain ⟨ts, hts, hp⟩ := parseSource_eq_ok hparse
  cases Parser.derives_of_parseTokens (lexical_of_tokenize hts) hp with
  | mk _ separated =>
    obtain ⟨ts', derives, sub⟩ := separated.item hs
    exact ⟨_, hts, ts', derives, fun t ht => List.mem_append_right _ (sub ht)⟩

theorem Stmt.Within.hasLine {text : String} {s : Stmt} (h : s.Within (topLevel text)) {n : Nat}
    (hn : n ∈ s.lines) : HasLine text n := by
  obtain ⟨d, hd, within⟩ := h.exists_root
  obtain ⟨ts, hts, written⟩ := written_of_topLevel hd
  exact ⟨ts, hts, (within.written fun _ heq => heq ▸ written).line hn⟩

theorem Expr.Within.hasLine {text : String} {e : Expr} (h : e.Within (topLevel text)) :
    HasLine text e.line := by
  obtain ⟨d, hd, within⟩ := h.exists_root
  obtain ⟨ts, hts, written⟩ := written_of_topLevel hd
  exact ⟨ts, hts, (within.written fun _ heq => heq ▸ written).line⟩

end ClassScript
