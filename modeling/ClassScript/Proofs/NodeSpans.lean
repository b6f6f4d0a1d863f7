import ClassScript.Proofs.HeadTokens

/-!
# The spans of the nodes of a tree

The nodes of a tree stand inside each other, and so do their spans. Hence a tree that has been
parsed has a span of every node among the tokens, and the line of the node is that of one token of
this span. For a statement, a body, a member and a signature it is the first token. For an
expression it is the operator between two operands, the point after the target of an access or a
call, or else the first token inside of the parentheses.
-/

namespace ClassScript

open Computability Language ClassScript.Span

namespace Span

variable {l m k : Language Token} {line : Nat}

/-- Whatever is in `l` has some tokens next to each other that are in `m`. -/
def Contains (l m : Language Token) : Prop :=
  ∀ ts ∈ l, ∃ own ∈ m, own <:+: ts

namespace Contains

theorem refl : Contains l l :=
  fun ts h => ⟨ts, h, List.infix_rfl⟩

theorem trans (h : Contains l m) (h' : Contains m k) : Contains l k := by
  intro ts hts
  obtain ⟨own, hown, inside⟩ := h ts hts
  obtain ⟨own', hown', inside'⟩ := h' own hown
  exact ⟨own', hown', inside'.trans inside⟩

theorem left (h : Contains l k) : Contains (l * m) k := by
  rintro _ ⟨first, hfirst, second, _, rfl⟩
  obtain ⟨own, hown, inside⟩ := h first hfirst
  exact ⟨own, hown, inside.trans (List.prefix_append _ _).isInfix⟩

theorem right (h : Contains m k) : Contains (l * m) k := by
  rintro _ ⟨first, _, second, hsecond, rfl⟩
  obtain ⟨own, hown, inside⟩ := h second hsecond
  exact ⟨own, hown, inside.trans (List.suffix_append _ _).isInfix⟩

theorem either (hl : Contains l k) (hm : Contains m k) : Contains (l + m) k := by
  rintro ts (h | h)
  · exact hl ts h
  · exact hm ts h

theorem headed (h : Contains l k) : Contains (headed line l) k :=
  fun ts hts => h ts hts.1

theorem enclosed (h : Contains l k) : Contains (enclosed l) k := by
  intro ts hts
  induction hts with
  | bare inside => exact h _ inside
  | @parentheses opening closing ts _ _ _ ih =>
    obtain ⟨own, hown, inside⟩ := ih
    exact ⟨own, hown, inside.trans ⟨[opening], [closing], rfl⟩⟩

theorem prod {ls : List (Language Token)} (h : l ∈ ls) : Contains ls.prod l := by
  obtain ⟨before, after, rfl⟩ := List.append_of_mem h
  rw [List.prod_append, List.prod_cons]
  exact .right (.left .refl)

theorem listed {ls : List (Language Token)} (h : l ∈ ls) : Contains (listed ls) l := by
  cases ls with
  | nil => cases h
  | cons first rest =>
    rcases List.mem_cons.mp h with rfl | h
    · exact .left .refl
    · exact .right ((prod (List.mem_map_of_mem h)).trans (.right .refl))

theorem parenthesized {ls : List (Language Token)} (h : l ∈ ls) :
    Contains (parenthesized ls) l :=
  .left (.right (.listed h))

theorem braced (h : Contains l k) : Contains (braced l) k :=
  .left (.right h)

end Contains

end Span

/-- The parts of a tree that have a line. -/
inductive Node where
  | expr (e : Expr)
  | simple (s : Simple)
  | stmt (s : Stmt)
  | block (b : Block)
  | member (m : Member)
  | signature (s : Signature)

/-- The nodes right inside of a statement. -/
def Stmt.nodes : Stmt → List Node
  | .simple s => [.simple s]
  | .print e _ | .throwValue e _ => [.expr e]
  | .returnValue e _ => e.toList.map .expr
  | .conditional c t e _ => .expr c :: (t :: e.toList).map .block
  | .whileLoop c b _ => [.expr c, .block b]
  | .forLoop i c u b _ => [.simple i, .expr c, .simple u, .block b]
  | .function _ _ b _ => [.block b]
  | .classDecl _ _ _ ms _ => ms.map .member
  | .interfaceDecl _ ms _ => ms.map .signature
  | .tryBlock b h _ => (b :: h.bodies).map .block
  | .breakLoop _ | .continueLoop _ | .importModule _ _ => []

/-- How an expression is written, parentheses around it left aside. The token that it has its line
from is the operator between the operands, the point after the target, or else the first one. -/
def Expr.headedSpan (e : Expr) : Language Token :=
  {ts | ∃ left head right, ts = left ++ head :: right ∧ head.line = e.line ∧
    match e with
    | .binary op l r _ => left ∈ l.span ∧ head.isText op.symbol = true ∧ right ∈ r.span
    | .member target _ _ | .methodCall target _ _ _ =>
      left ∈ target.span ∧ head.isText "." = true
    | _ => left = []}

namespace Node

def line : Node → Nat
  | expr e => e.line
  | simple s => s.line
  | stmt s => s.line
  | block b => b.line
  | member m => m.line
  | signature s => s.line

def span : Node → Language Token
  | expr e => e.span
  | simple s => s.span
  | stmt s => s.span
  | block b => b.span
  | member m => m.span
  | signature s => s.span

/-- The nodes right inside of a node. -/
def children : Node → List Node
  | expr e => e.operands.map expr
  | simple (.assign _ e _) | simple (.expr e _) => [expr e]
  | simple (.assignMember e _ v _) => [expr e, expr v]
  | stmt s => s.nodes
  | block b => b.statements.map stmt
  | member (.field _ _ e _) => e.toList.map expr
  | member (.method _ _ _ b _ _ _) => [block b]
  | signature _ => []

/-- The node stands anywhere inside of a program. -/
inductive Within (p : Program) : Node → Prop
  | statement {s : Stmt} (h : s ∈ p.statements) : Within p (stmt s)
  | inside {n child : Node} (h : Within p n) (hchild : child ∈ n.children) : Within p child

/-- The node has its line from the right one of the tokens that it is written as. -/
def Headed : Node → List Token → Prop
  | expr e, ts => ts ∈ enclosed e.headedSpan
  | n, ts => ts.head?.map Token.line = some n.line

end Node

theorem Expr.span_le_headedSpan (e : Expr) : e.span ≤ enclosed e.headedSpan := by
  have first {line : Nat} {l : Language Token} (starts : StartsOn line l) : ∀ ts ∈ l,
      ∃ left head right, ts = left ++ head :: right ∧ head.line = line ∧ left = [] := by
    intro ts hts
    obtain ⟨head, right, rfl, hline⟩ := starts.exists_head hts
    exact ⟨[], head, right, rfl, hline, rfl⟩
  have point {line : Nat} {l m : Language Token} : ∀ ts ∈ l * headed line (sign ".") * m,
      ∃ left head right, ts = left ++ head :: right ∧ head.line = line ∧ left ∈ l ∧
        head.isText "." = true := by
    rintro _ ⟨_, ⟨left, hleft, _, ⟨⟨head, rfl, htext⟩, hline⟩, rfl⟩, right, _, rfl⟩
    exact ⟨left, head, right, List.append_assoc _ _ _, Option.some.inj hline, hleft, htext⟩
  cases e with
  | number _ _ | text _ _ | boolean _ _ | null _ | var _ _ =>
    rw [Expr.span]
    exact enclosed_mono (first .headed)
  | unary _ _ _ | call _ _ _ =>
    rw [Expr.span]
    exact enclosed_mono (first (.mul .headed))
  | new _ _ =>
    rw [Expr.span]
    exact enclosed_mono (first (.mul (.mul .headed)))
  | superCall _ _ _ =>
    rw [Expr.span]
    exact enclosed_mono (first (.mul (.mul (.mul .headed))))
  | binary op l r line =>
    rw [Expr.span]
    apply enclosed_mono
    rintro _ ⟨_, ⟨left, hleft, _, ⟨⟨head, rfl, htext⟩, hline⟩, rfl⟩, right, hright, rfl⟩
    exact ⟨left, head, right, List.append_assoc _ _ _, Option.some.inj hline, hleft, htext, hright⟩
  | member target x line =>
    rw [Expr.span]
    exact enclosed_mono point
  | methodCall target m args line =>
    rw [Expr.span, mul_assoc _ (named m)]
    exact enclosed_mono point

namespace Node

/-- Whatever is a span of a node has the head of the node. -/
theorem headed_of_mem_span (n : Node) {ts : List Token} (h : ts ∈ n.span) : n.Headed ts := by
  cases n with
  | expr e => exact e.span_le_headedSpan h
  | simple s => exact s.startsOn_span ts h
  | stmt s => exact s.startsOn_span ts h
  | block b => exact b.startsOn_span ts h
  | member m => exact m.startsOn_span ts h
  | signature s => exact s.startsOn_span ts h

end Node

section Children

theorem Expr.contains_argument {args : List Expr} {e : Expr} (h : e ∈ args) :
    Contains (parenthesized (Expr.spans args)) e.span := by
  rw [Expr.spans_eq_map]
  exact .parenthesized (List.mem_map_of_mem h)

theorem Expr.contains_operand {e e' : Expr} (h : e' ∈ e.operands) : Contains e.span e'.span := by
  cases e with
  | number _ _ | text _ _ | boolean _ _ | null _ | var _ _ | new _ _ => cases h
  | unary _ _ _ =>
    cases List.mem_singleton.mp h
    rw [Expr.span]
    exact .enclosed (.right .refl)
  | binary _ _ _ _ =>
    rw [Expr.span]
    rcases List.mem_pair.mp h with rfl | rfl
    · exact .enclosed (.left (.left .refl))
    · exact .enclosed (.right .refl)
  | call _ _ _ =>
    rw [Expr.span]
    exact .enclosed (.right (Expr.contains_argument h))
  | member _ _ _ =>
    cases List.mem_singleton.mp h
    rw [Expr.span]
    exact .enclosed (.left (.left .refl))
  | methodCall _ _ _ _ =>
    rw [Expr.span]
    rcases List.mem_cons.mp h with rfl | h
    · exact .enclosed (.left (.left (.left .refl)))
    · exact .enclosed (.right (Expr.contains_argument h))
  | superCall _ _ _ =>
    rw [Expr.span]
    exact .enclosed (.right (Expr.contains_argument h))

theorem Expr.contains_assigned (e : Expr) : Contains e.assignedSpan e.span :=
  .right .refl

theorem Expr.contains_condition (e : Expr) : Contains e.conditionSpan e.span :=
  .right (.left .refl)

theorem Stmt.contains_item {ss : List Stmt} {s : Stmt} (h : s ∈ ss) :
    Contains (Stmt.spanAll ss) s.span := by
  rw [Stmt.spanAll_eq_prod]
  have item : s.span * semicolons ∈ ss.map fun s => s.span * semicolons :=
    List.mem_map_of_mem (f := fun s => s.span * semicolons) h
  exact (Contains.prod item).trans (.left .refl)

theorem Stmt.contains_alone {ss : List Stmt} {s : Stmt} (h : s ∈ ss) :
    Contains (Stmt.spanAlone ss) s.span := by
  rcases ss with _ | ⟨s', _ | ⟨s'', ss⟩⟩
  · cases h
  · cases List.mem_singleton.mp h
    rw [Stmt.spanAlone]
    exact .refl
  · -- only one statement can stand alone
    intro ts hts
    simp [Stmt.spanAlone] at hts

theorem Block.contains_statement {b : Block} {s : Stmt} (h : s ∈ b.statements) :
    Contains b.span s.span := by
  cases b
  rw [Block.span]
  exact .headed (.either (.braced (.right (Stmt.contains_item h))) (Stmt.contains_alone h))

theorem Handlers.contains_body {h : Handlers} {b : Block} (hb : b ∈ h.bodies) :
    Contains h.span b.span := by
  cases h with
  | catchOnly _ _ =>
    cases List.mem_singleton.mp hb
    rw [Handlers.span]
    exact .right (.right .refl)
  | finallyOnly _ =>
    cases List.mem_singleton.mp hb
    rw [Handlers.span]
    exact .right .refl
  | catchFinally _ _ _ =>
    rw [Handlers.span]
    rcases List.mem_pair.mp hb with rfl | rfl
    · exact .left (.right (.right .refl))
    · exact .right (.right .refl)

theorem Member.contains_child {m : Member} {n : Node} (h : n ∈ (Node.member m).children) :
    Contains m.span n.span := by
  cases m with
  | field _ _ e _ =>
    rw [Member.span]
    cases e with
    | none => cases h
    | some e =>
      cases List.mem_singleton.mp h
      exact .headed (.left (.right e.contains_assigned))
  | method _ _ _ _ _ _ _ =>
    cases List.mem_singleton.mp h
    rw [Member.span]
    exact .headed (.right .refl)

theorem Simple.contains_child {s : Simple} {n : Node} (h : n ∈ (Node.simple s).children) :
    Contains s.span n.span := by
  cases s with
  | assign _ e _ =>
    cases List.mem_singleton.mp h
    exact .right e.contains_assigned
  | assignMember _ _ v _ =>
    rcases List.mem_pair.mp h with rfl | rfl
    · exact .headed (.left (.enclosed (.left (.left .refl))))
    · exact .headed (.right v.contains_assigned)
  | expr _ _ =>
    cases List.mem_singleton.mp h
    exact .headed .refl

theorem Stmt.contains_node {s : Stmt} {n : Node} (h : n ∈ s.nodes) : Contains s.span n.span := by
  cases s with
  | breakLoop _ | continueLoop _ | importModule _ _ => cases h
  | simple _ =>
    cases List.mem_singleton.mp h
    rw [Stmt.span]
    exact .left .refl
  | print _ _ | throwValue _ _ =>
    cases List.mem_singleton.mp h
    rw [Stmt.span]
    exact .left (.right .refl)
  | returnValue e _ =>
    cases e with
    | none => cases h
    | some _ =>
      cases List.mem_singleton.mp h
      rw [Stmt.span]
      exact .left (.right .refl)
  | function _ _ _ _ =>
    cases List.mem_singleton.mp h
    rw [Stmt.span]
    exact .right .refl
  | conditional c t e _ =>
    cases e with
    | none =>
      rw [Stmt.span]
      rcases List.mem_pair.mp h with rfl | rfl
      · exact .left (.right c.contains_condition)
      · exact .right .refl
    | some _ =>
      rw [Stmt.span]
      rcases List.mem_cons.mp h with rfl | h
      · exact .left (.left (.right c.contains_condition))
      rcases List.mem_pair.mp h with rfl | rfl
      · exact .left (.right .refl)
      · exact .right (.right .refl)
  | whileLoop c _ _ =>
    rw [Stmt.span]
    rcases List.mem_pair.mp h with rfl | rfl
    · exact .left (.right c.contains_condition)
    · exact .right .refl
  | forLoop _ _ _ _ _ =>
    rw [Stmt.span]
    rcases List.mem_cons.mp h with rfl | h
    · exact .left (.left (.left (.left (.left (.left (.right .refl))))))
    rcases List.mem_cons.mp h with rfl | h
    · exact .left (.left (.left (.left (.right .refl))))
    rcases List.mem_pair.mp h with rfl | rfl
    · exact .left (.left (.right .refl))
    · exact .right .refl
  | classDecl _ _ _ ms _ =>
    obtain ⟨m, hm, rfl⟩ := List.mem_map.mp h
    rw [Stmt.span, Member.spanAll_eq_prod]
    exact .right (.braced (.prod (List.mem_map_of_mem hm)))
  | interfaceDecl _ ms _ =>
    obtain ⟨m, hm, rfl⟩ := List.mem_map.mp h
    rw [Stmt.span]
    exact .right (.braced (.prod (List.mem_map_of_mem hm)))
  | tryBlock _ _ _ =>
    rw [Stmt.span]
    rcases List.mem_cons.mp h with rfl | h
    · exact .left (.right .refl)
    · obtain ⟨b, hb, rfl⟩ := List.mem_map.mp h
      exact .right (Handlers.contains_body hb)

/-- A span of a node has in it one of every node right inside. -/
theorem Node.contains_child {n child : Node} (h : child ∈ n.children) :
    Contains n.span child.span := by
  cases n with
  | expr e =>
    obtain ⟨e', he', rfl⟩ := List.mem_map.mp h
    exact Expr.contains_operand he'
  | simple s => exact Simple.contains_child h
  | stmt s => exact Stmt.contains_node h
  | block b =>
    obtain ⟨s, hs, rfl⟩ := List.mem_map.mp h
    exact Block.contains_statement hs
  | member m => exact Member.contains_child h
  | signature s => cases h

theorem Program.contains_node {p : Program} {n : Node} (h : n.Within p) :
    Contains p.span n.span := by
  induction h with
  | statement h => exact .right (Stmt.contains_item h)
  | inside _ hchild ih => exact ih.trans (Node.contains_child hchild)

end Children

/-- The tokens that a program has been parsed from are a span of it, with a part for every node that
is a span of the node and has the head that the node takes its line from. -/
theorem node_heads_of_parseTokens {depth : Nat} {ts : List Token} {p : Program}
    (h : parseTokens depth ts = .ok p) :
    ts ∈ p.span ∧ ∀ n : Node, n.Within p → ∃ own ∈ n.span, own <:+: ts ∧ n.Headed own := by
  have span := parseTokens_mem_span h
  refine ⟨span, fun n within => ?_⟩
  obtain ⟨own, hown, inside⟩ := Program.contains_node within ts span
  exact ⟨own, hown, inside, n.headed_of_mem_span hown⟩

private def scattered : List Token :=
  [⟨.keyword, "class", 1, 1⟩, ⟨.identifier, "C", 2, 1⟩, ⟨.lbrace, "\x7b", 3, 1⟩,
    ⟨.keyword, "public", 4, 1⟩, ⟨.keyword, "function", 5, 1⟩, ⟨.identifier, "m", 6, 1⟩,
    ⟨.lparen, "(", 7, 1⟩, ⟨.rparen, ")", 8, 1⟩, ⟨.lbrace, "\x7b", 9, 1⟩, ⟨.lparen, "(", 10, 1⟩,
    ⟨.identifier, "a", 11, 1⟩, ⟨.operator, "+", 12, 1⟩, ⟨.identifier, "b", 13, 1⟩,
    ⟨.rparen, ")", 14, 1⟩, ⟨.dot, ".", 15, 1⟩, ⟨.identifier, "c", 16, 1⟩, ⟨.lparen, "(", 17, 1⟩,
    ⟨.rparen, ")", 18, 1⟩, ⟨.rbrace, "\x7d", 19, 1⟩, ⟨.rbrace, "\x7d", 20, 1⟩]

private def scatteredMethod : Member :=
  .method "m" .publicAccess []
    (.mk [.simple (.expr (.methodCall (.binary .add (.var "a" 11) (.var "b" 13) 12) "c" [] 15) 10)]
      9) false false 4

private def scatteredClass : Program :=
  ⟨[.classDecl "C" none [] [scatteredMethod] 1]⟩

set_option maxRecDepth 1024 in
/-- A class with every token on a line of its own: the method is on the line of its modifier. -/
theorem node_heads_of_scattered :
    parseTokens 9 scattered = .ok scatteredClass ∧ scattered ∈ scatteredClass.span ∧
      ∃ own ∈ scatteredMethod.span, own <:+: scattered ∧ own.head?.map Token.line = some 4 := by
  have parsed : parseTokens 9 scattered = .ok scatteredClass := rfl
  have within : (Node.member scatteredMethod).Within scatteredClass :=
    .inside (.statement List.mem_cons_self) List.mem_cons_self
  obtain ⟨span, nodes⟩ := node_heads_of_parseTokens parsed
  exact ⟨parsed, span, nodes _ within⟩

end ClassScript
