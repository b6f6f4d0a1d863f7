import Mathlib.Algebra.BigOperators.Group.List.Defs
import Mathlib.Order.CompletePartialOrder
import ClassScript.Proofs.Lookahead
import ClassScript.Proofs.TokenSpans

/-!
# Parsers that take the span of their answer

`Spans l p D` says of a parser that whenever it succeeds after tokens of `l`, these and what it takes
are in the language `D` of its answer. A sequence of parsers then adds one factor after the other to
what stands before, and what is left to show at its end is that a product of languages is in the
span of a node. The tokens may be any.
-/

namespace ClassScript

open Computability Language ClassScript.Span

namespace Span

theorem mem_headed {t : Token} {l : Language Token} (h : [t] ∈ l) : [t] ∈ headed t.line l :=
  ⟨h, rfl⟩

theorem headed_mono {line : Nat} {l m : Language Token} (le : l ≤ m) :
    headed line l ≤ headed line m :=
  fun _ h => ⟨le h.1, h.2⟩

/-- What is enclosed may be more. -/
theorem enclosed_mono {l m : Language Token} (le : l ≤ m) : enclosed l ≤ enclosed m := by
  intro ts h
  induction h with
  | bare inside => exact .bare (le inside)
  | parentheses hopening _ hclosing ih => exact .parentheses hopening ih hclosing

theorem nil_mem_mul {l m : Language Token} : [] ∈ l * m ↔ [] ∈ l ∧ [] ∈ m := by
  constructor
  · rintro ⟨a, ha, b, hb, hnil⟩
    obtain ⟨rfl, rfl⟩ := List.append_eq_nil_iff.mp hnil
    exact ⟨ha, hb⟩
  · rintro ⟨hl, hm⟩
    exact append_mem_mul hl hm

theorem nil_notMem_one (test : Token → Prop) : [] ∉ one test := by
  rintro ⟨t, ht, _⟩
  cases ht

theorem nil_notMem_headed (line : Nat) (l : Language Token) : [] ∉ headed line l :=
  StartsOn.headed.nil_notMem

theorem nil_notMem_braced {l : Language Token} : [] ∉ braced l := by
  simp [braced, nil_mem_mul, sign, nil_notMem_one]

theorem nil_mem_enclosed {l : Language Token} : [] ∈ enclosed l ↔ [] ∈ l := by
  constructor
  · rintro (inside | _)
    exact inside
  · exact .bare

theorem le_enclosed (l : Language Token) : l ≤ enclosed l :=
  fun _ h => .bare h

theorem enclosed_parentheses (l : Language Token) :
    (one fun t => t.kind = .lparen) * enclosed l * sign ")" ≤ enclosed l := by
  rintro _ ⟨_, ⟨_, ⟨opening, rfl, hopening⟩, ts, hts, rfl⟩, _, ⟨closing, rfl, hclosing⟩, rfl⟩
  exact .parentheses hopening hts hclosing

end Span

theorem Expr.nil_notMem_span (e : Expr) : [] ∉ e.span := by
  cases e <;> simp [Expr.span, nil_mem_enclosed, nil_mem_mul, nil_notMem_headed]

/-- An expression may have parentheses around it. -/
theorem Expr.parentheses_le_span (e : Expr) :
    (one fun t => t.kind = .lparen) * e.span * sign ")" ≤ e.span := by
  cases e <;> (rw [Expr.span]; exact enclosed_parentheses _)

namespace Parser

variable {α β : Type} {l m : Language Token}

/-- At least one token; tokens of `l` if the first is on the given line. -/
def onLine (line : Nat) (l : Language Token) : Language Token :=
  {ts | ts ≠ [] ∧ (ts.head?.map Token.line = some line → ts ∈ l)}

theorem le_onLine {line : Nat} (nonempty : [] ∉ l) (le : l ≤ m) : l ≤ onLine line (headed line m) :=
  fun _ h => ⟨ne_of_mem_of_not_mem h nonempty, fun hline => ⟨le h, hline⟩⟩

/-- After tokens of `l`, whatever the parser takes of these tokens makes them ones of the language of
its answer. -/
def SpansAt (ts : List Token) (l : Language Token) (p : Parser α) (D : α → Language Token) : Prop :=
  ∀ done ∈ l, ∀ a rest, p ts = .ok (a, rest) → ∃ pre, ts = pre ++ rest ∧ done ++ pre ∈ D a

/-- After tokens of `l`, whatever the parser takes makes them ones of the language of its answer. -/
def Spans (l : Language Token) (p : Parser α) (D : α → Language Token) : Prop :=
  ∀ ts, SpansAt ts l p D

namespace SpansAt

variable {p : Parser α} {D : α → Language Token} {ts : List Token} {t : Token}

theorem pure {a : α} (le : l ≤ D a) : SpansAt ts l (Pure.pure a) D := by
  rintro done hdone _ rest ⟨⟩
  refine ⟨[], rfl, le ?_⟩
  rwa [List.append_nil]

theorem fail (e : Expectation) : SpansAt ts l (Parser.fail e) D := by
  intro done _ a rest hok
  cases hok

theorem bind {E : α → Language Token} {k : α → Parser β} {F : β → Language Token}
    (hp : SpansAt ts l p E) (hk : ∀ a, Spans (E a) (k a) F) : SpansAt ts l (p >>= k) F := by
  intro done hdone b rest hok
  obtain ⟨a, mid, hfirst, hnext⟩ := bind_ok hok
  obtain ⟨pre, rfl, hpre⟩ := hp done hdone a mid hfirst
  obtain ⟨post, rfl, hpost⟩ := hk a mid _ hpre b rest hnext
  refine ⟨pre ++ post, (List.append_assoc _ _ _).symm, ?_⟩
  rwa [← List.append_assoc]

/-- The first token is taken, and then what the parser takes. -/
theorem skip (ht : [t] ∈ m) (h : SpansAt ts (l * m) p D) :
    SpansAt (t :: ts) l (do Parser.skip; p) D := by
  intro done hdone a rest hok
  obtain ⟨pre, rfl, hpre⟩ := h _ (append_mem_mul hdone ht) a rest (skip_bind_ok hok)
  refine ⟨t :: pre, rfl, ?_⟩
  rwa [List.append_assoc] at hpre

theorem skip_first (ht : [t] ∈ m) (h : SpansAt ts m p D) :
    SpansAt (t :: ts) 1 (do Parser.skip; p) D := by
  apply skip ht
  rwa [one_mul]

theorem pastFirst {rest? : Option (Parser α)} {otherwise : Parser α}
    (taken : ∀ r, rest? = some r → ∃ m : Language Token, [t] ∈ m ∧ Spans m r D)
    (other : rest? = none → SpansAt (t :: ts) 1 otherwise D) :
    SpansAt (t :: ts) 1 (Parser.pastFirst rest? otherwise) D := by
  cases rest? with
  | none => exact other rfl
  | some r =>
    obtain ⟨m, ht, h⟩ := taken r rfl
    exact skip_first ht (h ts)

end SpansAt

namespace Spans

variable {p : Parser α} {D E : α → Language Token}

theorem mono (h : Spans l p D) (le : ∀ a, D a ≤ E a) : Spans l p E := by
  intro ts done hdone a rest hok
  obtain ⟨pre, hts, hpre⟩ := h ts done hdone a rest hok
  exact ⟨pre, hts, le a hpre⟩

theorem pure {a : α} (le : l ≤ D a) : Spans l (Pure.pure a) D :=
  fun _ => .pure le

/-- A node that may have parentheses around it is written without any. -/
theorem bare {a : α} (h : D a = enclosed l) : Spans l (Pure.pure a) D := by
  apply pure
  rw [h]
  exact le_enclosed l

theorem fail (e : Expectation) : Spans l (Parser.fail e) D :=
  fun _ => .fail e

theorem tooDeep : Spans l Parser.tooDeep D := by
  intro ts done _ a rest hok
  cases hok

/-- What stands before is a factor on the left. -/
theorem frame (h : Spans 1 p D) : Spans l p fun a => l * D a := by
  intro ts done hdone a rest hok
  obtain ⟨pre, hts, hpre⟩ := h ts [] nil_mem_one a rest hok
  exact ⟨pre, hts, append_mem_mul hdone hpre⟩

theorem bind {k : α → Parser β} {F : β → Language Token} (hp : Spans 1 p D)
    (hk : ∀ a, Spans (l * D a) (k a) F) : Spans l (p >>= k) F :=
  fun ts => (hp.frame ts).bind hk

/-- A parser that starts with another one. -/
theorem bind_first {k : α → Parser β} {F : β → Language Token} (hp : Spans l p D)
    (hk : ∀ a, Spans (D a) (k a) F) : Spans l (p >>= k) F :=
  fun ts => (hp ts).bind hk

/-- A line that is read off the next token is that of the first token that is taken. -/
theorem currentLine {k : Nat → Parser β} {F : β → Language Token}
    (h : ∀ line, Spans 1 (k line) fun b => onLine line (F b)) :
    Spans 1 (Parser.currentLine >>= k) F := by
  intro ts done hdone b rest hok
  obtain ⟨line, mid, hline, hok⟩ := bind_ok hok
  cases hline
  cases hdone
  obtain ⟨pre, rfl, nonempty, hpre⟩ := h _ ts [] nil_mem_one b rest hok
  refine ⟨pre, rfl, hpre ?_⟩
  cases pre with
  | nil => exact absurd rfl nonempty
  | cons t pre => rfl

/-- Looking at the next token does not take it. -/
theorem peek {k : Option Token → Parser β} {F : β → Language Token}
    (none : SpansAt [] l (k none) F) (some : ∀ t ts, SpansAt (t :: ts) l (k (some t)) F) :
    Spans l (Parser.peek >>= k) F := by
  intro ts done hdone b rest hok
  obtain ⟨next, mid, hnext, hok⟩ := bind_ok hok
  cases hnext
  cases ts with
  | nil => exact none done hdone b rest hok
  | cons t ts => exact some t ts done hdone b rest hok

/-- A word or symbol is looked for, and not taken. -/
theorem check {text : String} {k : Bool → Parser β} {F : β → Language Token}
    (yes : ∀ t ts, [t] ∈ sign text → SpansAt (t :: ts) l (k true) F) (no : Spans l (k false) F) :
    Spans l (Parser.check text >>= k) F := by
  intro ts done hdone b rest hok
  obtain ⟨found, mid, hfound, hok⟩ := bind_ok hok
  cases hfound
  cases ts with
  | nil => exact no [] done hdone b rest hok
  | cons t ts =>
    cases htext : t.isText text with
    | false =>
      simp only [List.head?_cons, Option.map_some, Option.getD_some, htext] at hok
      exact no (t :: ts) done hdone b rest hok
    | true =>
      simp only [List.head?_cons, Option.map_some, Option.getD_some, htext] at hok
      exact yes t ts ⟨t, rfl, htext⟩ done hdone b rest hok

theorem accept (text : String) :
    Spans 1 (Parser.accept text) fun found => if found then sign text else 1 := by
  apply check
  · intro t ts ht
    exact SpansAt.skip_first ht (.pure le_rfl)
  · exact .pure le_rfl

theorem expect (text : String) : Spans 1 (Parser.expect text) fun _ => sign text := by
  apply check
  · intro t ts ht
    exact SpansAt.skip_first (p := Pure.pure ()) ht (.pure le_rfl)
  · exact .fail _

theorem name (role : NameRole) : Spans 1 (Parser.name role) named := by
  apply peek
  · exact .fail _
  · intro t ts
    by_cases hkind : t.kind = .identifier
    · simp only [hkind, if_true]
      have ht : [t] ∈ named t.text := ⟨t, rfl, hkind, rfl⟩
      exact SpansAt.skip_first ht (.pure le_rfl)
    · simp only [hkind, if_false]
      exact .fail _

/-- What is optional leaves what stands before as it is when it is not there. -/
theorem optionally {wanted : Token → Option β} {q : Token → β → Parser α}
    (h : ∀ t b ts, wanted t = some b → SpansAt (t :: ts) l (q t b) D) :
    Spans l (Parser.optionally wanted q) fun found => found.elim l D := by
  apply peek
  · exact .pure le_rfl
  · intro t ts
    cases hw : wanted t with
    | none =>
      simp only [hw]
      exact .pure le_rfl
    | some b =>
      simp only [hw]
      exact (h t b ts hw).bind fun a => .pure le_rfl

theorem whenNext {test : Token → Bool} {q : Token → Parser α}
    (h : ∀ t ts, test t = true → SpansAt (t :: ts) l (q t) D) :
    Spans l (Parser.whenNext test q) fun found => found.elim l D := by
  apply optionally
  intro t b ts hguard
  exact h t ts (Option.guard_eq_some_iff.mp hguard).2

theorem guarded (test : Token → Bool) (h : Spans 1 p D) :
    Spans 1 (Parser.whenNext test fun _ => p) (Rendering.optional D) := by
  apply (whenNext (D := D) fun t ts _ => h (t :: ts)).mono
  intro found
  cases found <;> exact le_rfl

theorem afterSign {text : String} (h : Spans (l * sign text) p D) :
    Spans l (Parser.after text p) fun found => found.elim l D := by
  apply whenNext
  intro t ts htext
  have ht : [t] ∈ sign text := ⟨t, rfl, htext⟩
  exact SpansAt.skip ht (h ts)

theorem after (text : String) (h : Spans 1 p D) :
    Spans 1 (Parser.after text p) (Rendering.optional fun a => sign text * D a) := by
  apply (afterSign h.frame).mono
  intro found
  cases found with
  | none => exact le_rfl
  | some a =>
    rw [Option.elim_some, one_mul]
    exact le_rfl

/-- What one step makes of an answer, the repetition does: by induction on its bound. -/
theorem repeated {step : α → Parser (Option α)}
    (h : ∀ a, Spans (D a) (step a) fun found => found.elim (D a) D) (a : α) :
    Spans (D a) (Parser.repeated step a) D := by
  have rounds (bound : List Token) (a : α) : Spans (D a) (iterate step bound a) D := by
    induction bound generalizing a with
    | nil => exact .pure le_rfl
    | cons _ bound ih =>
      apply (h a).bind_first
      intro found
      cases found with
      | none => exact .pure le_rfl
      | some b => exact ih b
  exact fun ts => rounds ts a ts

theorem many {item : Parser (Option α)} (h : Spans 1 item (Rendering.optional D)) :
    Spans 1 (Parser.many item) fun as => (as.map D).prod := by
  refine repeated (D := fun as : List α => (as.map D).prod) ?_ []
  intro as
  apply h.bind
  intro found
  cases found with
  | none => exact .pure (mul_one _).le
  | some a =>
    apply Spans.pure
    rw [Option.map_some, Option.elim_some, List.map_append, List.prod_append, List.map_singleton,
      List.prod_singleton]
    exact le_rfl

/-- The items are one or more. -/
theorem commaSeparated (h : Spans 1 p D) {F : List α → Language Token}
    (le : ∀ a as, l * listed ((a :: as).map D) ≤ F (a :: as)) :
    Spans l (Parser.commaSeparated p) F := by
  apply h.bind
  intro first
  apply (many (after "," h)).bind
  intro rest
  apply Spans.pure
  refine le_trans ?_ (le first rest)
  rw [List.map_cons, listed, List.map_map, mul_assoc]
  exact le_rfl

theorem parenthesized (h : Spans 1 p D) :
    Spans 1 (Parser.parenthesized p) fun as => Span.parenthesized (as.map D) := by
  have items : Spans 1 (listedItems p) fun as => listed (as.map D) := by
    apply check
    · exact fun _ _ _ => .pure le_rfl
    · exact commaSeparated h fun _ _ => (one_mul _).le
  apply (expect "(").bind_first
  intro _
  apply items.bind
  intro as
  apply (expect ")").bind
  intro _
  exact .pure le_rfl

theorem unlessClosed (h : Spans 1 p D) :
    Spans 1 (Parser.many (Parser.unlessClosed p)) fun as => (as.map D).prod :=
  many (guarded _ h)

theorem inBraces (h : Spans 1 p D) :
    Spans 1 (Parser.inBraces p) fun as => braced (as.map D).prod := by
  apply (expect "\x7b").bind_first
  intro _
  apply (unlessClosed h).bind
  intro as
  apply (expect "\x7d").bind
  intro _
  exact .pure le_rfl

theorem endSimple : Spans 1 Parser.endSimple fun _ => ending := by
  apply (accept ";").bind_first
  intro found
  cases found with
  | false => exact .pure fun _ h => Or.inl h
  | true => exact .pure fun _ h => Or.inr h

theorem skipSeparators : Spans 1 Parser.skipSeparators fun _ => semicolons := by
  have one : Spans 1 (Pure.pure () : Parser Unit) fun _ => 1 := .pure le_rfl
  apply (many (after ";" one)).bind_first
  intro (units : List Unit)
  apply Spans.pure
  rw [List.map_const', mul_one, List.prod_replicate, semicolons, kstar_eq_iSup_pow]
  exact le_iSup (fun i : Nat => sign ";" ^ i) _

end Spans

end Parser

end ClassScript
