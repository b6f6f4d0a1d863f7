import ClassScript.Proofs.Misreading

/-!
# Parsing inverts rendering

Every well-formed program has a rendering, and each of its renderings is parsed as that program, up
to lines, exactly when the reading of `print` takes none of its statements for another.
-/

namespace ClassScript.Parser

open Rendering Computability

section Existence

/-- The language has a list. -/
def Renders (l : Language Token) : Prop :=
  ∃ ts, ts ∈ l

theorem renders_one : Renders 1 :=
  ⟨[], (Language.mem_one _).mpr rfl⟩

theorem Renders.mul {l m : Language Token} (hl : Renders l) (hm : Renders m) : Renders (l * m) := by
  obtain ⟨u, hu⟩ := hl
  obtain ⟨v, hv⟩ := hm
  exact ⟨u ++ v, Language.mem_mul.mpr ⟨u, hu, v, hv, rfl⟩⟩

theorem renders_word {kind : TokenKind} {text : String} : Renders (word kind text) :=
  ⟨[⟨kind, text, 0, 0⟩], _, rfl, rfl, rfl⟩

theorem renders_semicolons : Renders semicolon∗ :=
  ⟨[], Language.nil_mem_kstar _⟩

theorem renders_prod {ls : List (Language Token)} (h : ∀ l ∈ ls, Renders l) : Renders ls.prod := by
  induction ls with
  | nil => exact renders_one
  | cons l ls ih =>
    rw [List.prod_cons]
    exact (h l List.mem_cons_self).mul (ih fun l' hl => h l' (List.mem_cons_of_mem _ hl))

theorem renders_parenthesized {l : Language Token} (h : Renders l) :
    Renders (Rendering.parenthesized l) :=
  (renders_word.mul h).mul renders_word

theorem renders_listed {ls : List (Language Token)} (h : ∀ l ∈ ls, Renders l) :
    Renders (listed ls) := by
  cases ls with
  | nil => exact renders_one
  | cons l ls =>
    refine (h l List.mem_cons_self).mul (renders_prod fun m hm => ?_)
    obtain ⟨l', hl, rfl⟩ := List.mem_map.mp hm
    exact renders_word.mul (h l' (List.mem_cons_of_mem _ hl))

theorem renders_names (xs : List String) : Renders (listed (xs.map identifier)) := by
  refine renders_listed fun l hl => ?_
  obtain ⟨x, _, rfl⟩ := List.mem_map.mp hl
  exact renders_word

theorem renders_enclosed {needed : Bool} {l : Language Token} (h : Renders l) :
    Renders (enclosed needed l) := by
  rw [enclosed]
  split
  · exact renders_parenthesized h
  · exact h

theorem renders_arguments {args : List Expr} (h : ∀ e ∈ args, Renders e.rendering) :
    Renders (Rendering.parenthesized (listed (Expr.renderings args))) := by
  refine renders_parenthesized (renders_listed fun l hl => ?_)
  rw [Expr.renderings_eq_map] at hl
  obtain ⟨e, he, rfl⟩ := List.mem_map.mp hl
  exact h e he

theorem renders_expression {e : Expr} (wf : e.WellFormed) : Renders e.rendering := by
  induction wf with
  | @intro e here inside ih =>
    cases e with
    | number x line =>
      obtain ⟨text, htext, hvalue⟩ := here
      exact ⟨[⟨.number, text, 0, 0⟩], _, rfl, rfl, htext, hvalue⟩
    | text x line => exact renders_word
    | boolean b line => exact renders_word
    | null line => exact renders_word
    | var x line =>
      rw [Expr.rendering]
      split <;> exact renders_word
    | unary op e line => exact renders_word.mul (renders_enclosed (ih e List.mem_cons_self))
    | binary op l r line =>
      exact ((renders_enclosed (ih l (by simp [Expr.operands]))).mul renders_word).mul
        (renders_enclosed (ih r (by simp [Expr.operands])))
    | call f args line => exact renders_word.mul (renders_arguments ih)
    | new c line => exact (renders_word.mul renders_word).mul (renders_parenthesized renders_one)
    | member e x line =>
      exact ((renders_enclosed (ih e List.mem_cons_self)).mul renders_word).mul renders_word
    | methodCall e m args line =>
      exact (((renders_enclosed (ih e List.mem_cons_self)).mul renders_word).mul renders_word).mul
        (renders_arguments fun e he => ih e (List.mem_cons_of_mem _ he))
    | superCall m args line =>
      exact ((renders_word.mul renders_word).mul renders_word).mul (renders_arguments ih)

theorem renders_simple {s : Simple} (wf : s.WellFormed) : Renders s.rendering := by
  cases s with
  | assign x e line => exact renders_word.mul (renders_word.mul (renders_expression wf.2))
  | assignMember e x v line =>
    exact (renders_expression (Expr.WellFormed.member wf.1 wf.2.1)).mul
      (renders_word.mul (renders_expression wf.2.2))
  | expr e line => exact renders_expression wf

theorem renders_statements {ss : List Stmt} (h : ∀ s ∈ ss, Renders s.rendering) :
    Renders (Stmt.renderingAll ss) := by
  rw [renderingAll_eq_prod]
  refine renders_prod fun l hl => ?_
  obtain ⟨s, hs, rfl⟩ := List.mem_map.mp hl
  refine (h s hs).mul (.mul ?_ renders_semicolons)
  rw [Stmt.ending]
  split
  · exact renders_one
  · exact renders_word

theorem renders_inBraces {l : Language Token} (h : Renders l) : Renders (Rendering.inBraces l) :=
  (renders_word.mul h).mul renders_word

theorem renders_handlers {h : Handlers} (hbodies : ∀ b ∈ h.bodies, Renders b.rendering) :
    Renders h.rendering := by
  have clause (x : String) := renders_parenthesized (l := identifier x) renders_word
  cases h with
  | catchOnly x b => exact (renders_word.mul (clause x)).mul (hbodies b (by simp [Handlers.bodies]))
  | finallyOnly f => exact renders_word.mul (hbodies f (by simp [Handlers.bodies]))
  | catchFinally x b f =>
    exact ((renders_word.mul (clause x)).mul (hbodies b (by simp [Handlers.bodies]))).mul
      (renders_word.mul (hbodies f (by simp [Handlers.bodies])))

theorem renders_member {m : Member} (proper : m.Proper)
    (hbodies : ∀ b ∈ m.bodies, Renders b.rendering) : Renders m.rendering := by
  cases m with
  | field x a e line =>
    refine ((renders_word.mul renders_word).mul ?_).mul renders_word
    cases e with
    | none => exact renders_one
    | some e => exact renders_word.mul (renders_expression (proper.2 e rfl))
  | method m a ps b v o line =>
    have flag (f : Bool) (text : String) : Renders (if f then keyword text else 1) := by
      cases f
      · exact renders_one
      · exact renders_word
    exact (((((renders_word.mul (flag v _)).mul (flag o _)).mul renders_word).mul renders_word).mul
      (renders_parenthesized (renders_names ps))).mul (hbodies b (by simp [Member.bodies]))

theorem renders_members {ms : List Member} (proper : ∀ m ∈ ms, m.Proper)
    (hbodies : ∀ b ∈ ms.flatMap Member.bodies, Renders b.rendering) :
    Renders (Member.renderingAll ms) := by
  rw [renderingAll_members_eq_prod]
  refine renders_prod fun l hl => ?_
  obtain ⟨m, hm, rfl⟩ := List.mem_map.mp hl
  exact renders_member (proper m hm) fun b hb => hbodies b (List.mem_flatMap.mpr ⟨m, hm, hb⟩)

theorem renders_statement {s : Stmt} (h : s.Everywhere Stmt.Proper) : Renders s.rendering := by
  induction h with
  | @intro s proper inside ih =>
    have bodies (b : Block) (hb : b ∈ s.bodies) : Renders b.rendering := by
      obtain ⟨ss, line⟩ := b
      exact renders_inBraces (renders_statements (ih _ hb))
    cases s with
    | simple s => exact renders_simple proper
    | print e line => exact renders_word.mul (renders_expression proper)
    | conditional c t e line =>
      have test := renders_parenthesized (renders_expression proper)
      cases e with
      | none => exact (renders_word.mul test).mul (bodies t (by simp [Stmt.bodies]))
      | some e =>
        exact ((renders_word.mul test).mul (bodies t (by simp [Stmt.bodies]))).mul
          (renders_word.mul (bodies e (by simp [Stmt.bodies])))
    | whileLoop c b line =>
      exact (renders_word.mul (renders_parenthesized (renders_expression proper))).mul
        (bodies b (by simp [Stmt.bodies]))
    | forLoop i c u b line =>
      obtain ⟨hi, hc, hu⟩ := proper
      refine (renders_word.mul (renders_parenthesized ?_)).mul (bodies b (by simp [Stmt.bodies]))
      exact ((((renders_simple hi).mul renders_word).mul (renders_expression hc)).mul
        renders_word).mul (renders_simple hu)
    | breakLoop line => exact renders_word
    | continueLoop line => exact renders_word
    | function f ps b line =>
      exact ((renders_word.mul renders_word).mul (renders_parenthesized (renders_names ps))).mul
        (bodies b (by simp [Stmt.bodies]))
    | returnValue e line =>
      refine renders_word.mul ?_
      cases e with
      | none => exact renders_one
      | some e => exact renders_expression (proper e rfl)
    | classDecl c base is ms line =>
      refine (((renders_word.mul renders_word).mul ?_).mul ?_).mul
        (renders_inBraces (renders_members proper.2.2.2 bodies))
      · cases base with
        | none => exact renders_one
        | some b => exact renders_word.mul renders_word
      · cases is with
        | nil => exact renders_one
        | cons i is => exact renders_word.mul (renders_names (i :: is))
    | interfaceDecl i ms line =>
      refine (renders_word.mul renders_word).mul (renders_inBraces (renders_prod fun l hl => ?_))
      obtain ⟨m, _, rfl⟩ := List.mem_map.mp hl
      exact ((renders_word.mul renders_word).mul
        (renders_parenthesized (renders_names m.params))).mul renders_word
    | tryBlock b h line =>
      exact (renders_word.mul (bodies b (by simp [Stmt.bodies]))).mul
        (renders_handlers fun b hb => bodies b (by simp [Stmt.bodies, hb]))
    | throwValue e line => exact renders_word.mul (renders_expression proper)
    | importModule m line => exact renders_word.mul renders_word

end Existence

section Programs

variable {p : Program}

theorem inverts_program (wf : p.WellFormed) (plain : p.Plain) :
    Inverts wholeProgram p.rendering (· = none) fun q => q.forgetLines = p.forgetLines := by
  have all := restoredAll wf plain
  rw [Program.rendering, ← one_mul (Stmt.renderingAll _)]
  refine inverts_noSeparators.bind (fun _ _ => ?_) (leads_statements (fun s hs => (all s hs).2) ?_)
  · refine ((inverts_statements all fun _ _ => rfl).mono ?_ fun _ => id).bind_pure fun ss hss => ?_
    · rintro next rfl
      exact ⟨rfl, rfl⟩
    · simp only [Program.forgetLines, hss]
  · rintro next rfl
    rfl

end Programs

end ClassScript.Parser

namespace ClassScript

open Rendering

/-- A well-formed program has a rendering, and each of its renderings is parsed as that program, up
to lines, exactly when the program is plain. The limit on nesting is set aside: the depth allowed
exceeds the length of the rendering by two, and no list of tokens nests deeper than that. -/
theorem parse_rendering {p : Program} (wf : p.WellFormed) :
    (∃ ts, ts ∈ p.rendering) ∧ ∀ ts ∈ p.rendering, ∀ depth, ts.length + 2 ≤ depth →
      ((∃ q, parseTokens depth ts = .ok q ∧ q.forgetLines = p.forgetLines) ↔ p.Plain) := by
  refine ⟨Parser.renders_statements fun s hs => Parser.renders_statement (wf s hs), ?_⟩
  intro ts hts depth hdepth
  constructor
  · rintro ⟨q, hparse, hq⟩
    obtain ⟨rest, hrun⟩ := (Parser.parseTokens_ok_iff hdepth).mp hparse
    rw [← List.append_nil ts] at hrun
    exact Parser.reveals_program wf ts hts [] rfl q rest hrun hq
  · intro plain
    obtain ⟨q, hq, hread⟩ := Parser.inverts_program wf plain ts hts
    have hrun := hread none rfl [] rfl
    rw [List.append_nil] at hrun
    exact ⟨q, (Parser.parseTokens_ok_iff hdepth).mpr ⟨[], hrun⟩, hq⟩

/-- `a + b` -/
def sumOfNames : Expr := .binary .add (.var "a" 1) (.var "b" 1) 1

theorem wellFormed_sumOfNames : sumOfNames.WellFormed :=
  .binary (.var (by decide)) (.var (by decide))

/-- The print statement of a product whose right operand is in parentheses. -/
def printOfSumLast : Program :=
  ⟨[.print (.binary .mul (.var "c" 1) sumOfNames 1) 1]⟩

/-- The print statement of a product whose left operand is in parentheses. -/
def printOfProduct : Program :=
  ⟨[.print (.binary .mul sumOfNames (.var "c" 1) 1) 1]⟩

theorem wellFormed_printOfProduct : printOfProduct.WellFormed :=
  List.forall_mem_singleton.mpr
    (.of_no_bodies (.binary wellFormed_sumOfNames (.var (by decide))) rfl)

/-- `print c * (a + b);` is parsed as the statement it renders, `print (a + b) * c;` never is. -/
theorem parse_rendering_print :
    (printOfSumLast.WellFormed ∧ ∃ ts ∈ printOfSumLast.rendering, ∃ q,
      parseTokens (ts.length + 2) ts = .ok q ∧ q.forgetLines = printOfSumLast.forgetLines) ∧
    (printOfProduct.WellFormed ∧ ∃ ts ∈ printOfProduct.rendering, ¬∃ q,
      parseTokens (ts.length + 2) ts = .ok q ∧ q.forgetLines = printOfProduct.forgetLines) := by
  have wf : printOfSumLast.WellFormed :=
    List.forall_mem_singleton.mpr
      (.of_no_bodies (.binary (.var (by decide)) wellFormed_sumOfNames) rfl)
  have plain : printOfSumLast.Plain := List.forall_mem_singleton.mpr (.of_no_bodies rfl rfl)
  have notPlain : ¬printOfProduct.Plain := by
    intro plain
    cases (List.forall_mem_singleton.mp plain).here
  obtain ⟨⟨ts, hts⟩, h⟩ := parse_rendering wf
  obtain ⟨⟨ts', hts'⟩, h'⟩ := parse_rendering wellFormed_printOfProduct
  exact ⟨⟨wf, ts, hts, (h ts hts _ (Nat.le_refl _)).mpr plain⟩,
    wellFormed_printOfProduct, ts', hts', fun read =>
      notPlain ((h' ts' hts' _ (Nat.le_refl _)).mp read)⟩

/-- `print (a + b) * c;` -/
def printOfProductTokens : List Token :=
  [⟨.identifier, "print", 1, 1⟩, ⟨.lparen, "(", 1, 7⟩, ⟨.identifier, "a", 1, 8⟩,
    ⟨.operator, "+", 1, 10⟩, ⟨.identifier, "b", 1, 12⟩, ⟨.rparen, ")", 1, 13⟩,
    ⟨.operator, "*", 1, 15⟩, ⟨.identifier, "c", 1, 17⟩, ⟨.separator, ";", 1, 18⟩]

/-- The sum of the variables `print` and `a`. -/
def sumOfPrint : Program :=
  ⟨[.simple (.expr (.binary .add (.var "print" 1) (.var "a" 1) 1) 1)]⟩

/-- `print + a;` -/
def sumOfPrintTokens : List Token :=
  [⟨.identifier, "print", 1, 1⟩, ⟨.operator, "+", 1, 7⟩, ⟨.identifier, "a", 1, 9⟩,
    ⟨.separator, ";", 1, 10⟩]

theorem printOfProductTokens_mem : printOfProductTokens ∈ printOfProduct.rendering := by
  have sum := Language.append_mem_mul (Language.append_mem_mul (mem_word ⟨.identifier, "a", 1, 8⟩)
    (mem_word ⟨.operator, "+", 1, 10⟩)) (mem_word ⟨.identifier, "b", 1, 12⟩)
  have left := Language.append_mem_mul (Language.append_mem_mul (mem_word ⟨.lparen, "(", 1, 7⟩) sum)
    (mem_word ⟨.rparen, ")", 1, 13⟩)
  have product := Language.append_mem_mul (Language.append_mem_mul left
    (mem_word ⟨.operator, "*", 1, 15⟩)) (mem_word ⟨.identifier, "c", 1, 17⟩)
  have statement := Language.append_mem_mul (mem_word ⟨.identifier, "print", 1, 1⟩) product
  have ending := Language.append_mem_mul (mem_word ⟨.separator, ";", 1, 18⟩)
    (Language.nil_mem_kstar semicolon)
  exact Language.append_mem_mul (Language.append_mem_mul statement ending)
    ((Language.mem_one _).mpr rfl)

theorem sumOfPrintTokens_mem : sumOfPrintTokens ∈ sumOfPrint.rendering := by
  have sum := Language.append_mem_mul (Language.append_mem_mul
    (mem_word ⟨.identifier, "print", 1, 1⟩) (mem_word ⟨.operator, "+", 1, 7⟩))
    (mem_word ⟨.identifier, "a", 1, 9⟩)
  have ending := Language.append_mem_mul (mem_word ⟨.separator, ";", 1, 10⟩)
    (Language.nil_mem_kstar semicolon)
  exact Language.append_mem_mul (Language.append_mem_mul sum ending) ((Language.mem_one _).mpr rfl)

/-- Two renderings of well-formed programs that are parsed as something else. -/
theorem misread_print :
    (printOfProduct.WellFormed ∧ printOfProductTokens ∈ printOfProduct.rendering ∧
      ∃ q, parseTokens 11 printOfProductTokens = .ok q ∧
        q.forgetLines ≠ printOfProduct.forgetLines) ∧
    (sumOfPrint.WellFormed ∧ sumOfPrintTokens ∈ sumOfPrint.rendering ∧
      ∃ q, parseTokens 6 sumOfPrintTokens = .ok q ∧ q.forgetLines ≠ sumOfPrint.forgetLines) := by
  refine ⟨⟨wellFormed_printOfProduct, printOfProductTokens_mem, _, rfl, ?_⟩,
    ⟨?_, sumOfPrintTokens_mem, _, rfl, ?_⟩⟩
  · simp [printOfProduct, Program.forgetLines]
  · exact List.forall_mem_singleton.mpr
      (.of_no_bodies (.binary (.var (by decide)) (.var (by decide))) rfl)
  · simp [sumOfPrint, Program.forgetLines]

end ClassScript
