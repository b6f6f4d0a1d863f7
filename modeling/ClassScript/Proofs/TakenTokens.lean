import ClassScript.Proofs.Derivation
import ClassScript.Proofs.Lookahead
import ClassScript.Proofs.Retokenizing

/-!
# What a parser has taken

`Takes p D` says of a parser that whenever it succeeds, what it has taken from the front of the
tokens stands in the relation `D` to its answer. Such facts are put together as parsers are: a
sequence takes one part after the other, and a repetition takes the parts of its rounds.

The tokens are those that the lexer makes. Parsers often look at the text of a token alone, and
among these tokens the text of a fixed token determines its kind, and the kind its text.
-/

namespace ClassScript

open ClassScript.Derivation

/-- Tokens as the lexer makes them. -/
def Lexical (ts : List Token) : Prop :=
  ∀ t ∈ ts, IsLexeme t.kind t.text.toList

theorem Lexical.right {pre rest : List Token} (h : Lexical (pre ++ rest)) : Lexical rest := by
  intro t ht
  exact h t (List.mem_append_right pre ht)

theorem Lexical.tail {t : Token} {ts : List Token} (h : Lexical (t :: ts)) : Lexical ts := by
  intro t' ht'
  exact h t' (List.mem_cons_of_mem t ht')

theorem lexical_of_tokenize {source : String} {ts : List Token} (h : tokenize source = .ok ts) :
    Lexical ts := by
  intro t ht
  have read : t ∈ (scan source).tokens := by rwa [tokenize_eq_ok_iff.mp h]
  exact ((Scan.standsIn source).1 t read).isLexeme

/-- The lexer gives the text this kind. -/
def Spelled (kind : TokenKind) (text : String) : Prop :=
  (Rule.first? text.toList).bind Rule.kind = some kind

instance (kind : TokenKind) (text : String) : Decidable (Spelled kind text) :=
  inferInstanceAs (Decidable (_ = _))

theorem spelled_keyword : ∀ text ∈ Rule.keywords, Spelled .keyword text := by decide +kernel

theorem spelled_comma : Spelled .comma "," := by decide

theorem spelled_semicolon : Spelled .separator ";" := by decide

theorem spelled_dot : Spelled .dot "." := by decide

theorem spelled_lparen : Spelled .lparen "(" := by decide

theorem spelled_rparen : Spelled .rparen ")" := by decide

theorem spelled_lbrace : Spelled .lbrace "\x7b" := by decide

theorem spelled_rbrace : Spelled .rbrace "\x7d" := by decide

theorem UnaryOp.spelled (op : UnaryOp) : Spelled op.kind op.symbol := by
  cases op <;> decide

theorem BinaryOp.spelled (op : BinaryOp) : Spelled op.kind op.symbol := by
  cases op <;> decide

theorem Access.spelled (a : Access) : Spelled .keyword a.word := by
  cases a <;> decide

/-- The text of a token determines its kind. -/
theorem Token.is_of_text {t : Token} (h : IsLexeme t.kind t.text.toList) {kind : TokenKind}
    {text : String} (spelled : Spelled kind text) (htext : t.text = text) : t.Is kind text := by
  subst htext
  obtain ⟨r, hfirst, hkind, _⟩ := h.again (w := []) (by simp [Rule.Bounded])
  rw [List.append_nil] at hfirst
  rw [Spelled, hfirst, Option.bind_some, hkind] at spelled
  exact ⟨Option.some.inj spelled, rfl⟩

theorem Token.is_of_isText {t : Token} (h : IsLexeme t.kind t.text.toList) {kind : TokenKind}
    {text : String} (spelled : Spelled kind text) (htext : t.isText text = true) :
    t.Is kind text :=
  is_of_text h spelled (eq_of_beq (Bool.and_eq_true_iff.mp htext).2)

/-- Where the only rule for a kind is one for a single character, the kind determines the text. -/
theorem Token.is_of_kind {t : Token} (h : IsLexeme t.kind t.text.toList) {kind : TokenKind}
    {c : Char} (only : ∀ r ∈ Rule.all, r.kind = some kind → r.extent = Rule.oneOf [c])
    (hkind : t.kind = kind) : t.Is kind (String.ofList [c]) := by
  obtain ⟨r, hfirst, hr, hlength⟩ := h.again (w := []) (by simp [Rule.Bounded])
  rw [List.append_nil] at hfirst hlength
  have extent := only r (List.mem_of_find?_eq_some hfirst) (hkind ▸ hr)
  have positive := Rule.extent_pos_of_first? hfirst
  rw [extent] at hlength positive
  have text : t.text.toList = [c] := by
    cases hcs : t.text.toList with
    | nil =>
      rw [hcs] at positive
      cases positive
    | cons d ds =>
      rw [hcs, Rule.oneOf] at hlength positive
      by_cases hd : [c].contains d = true
      · rw [if_pos hd, List.length_cons] at hlength
        have hnil : ds = [] := List.length_eq_zero_iff.mp (by omega)
        have hdc : d = c := List.mem_singleton.mp (List.contains_iff_mem.mp hd)
        rw [hnil, hdc]
      · rw [if_neg hd] at positive
        cases positive
  exact ⟨hkind, by rw [← text, String.ofList_toList]⟩

theorem Token.is_assign {t : Token} (h : IsLexeme t.kind t.text.toList) (hkind : t.kind = .assign) :
    t.Is .assign "=" :=
  is_of_kind h (c := '=') (by simp [Rule.all]) hkind

theorem Token.is_lparen {t : Token} (h : IsLexeme t.kind t.text.toList) (hkind : t.kind = .lparen) :
    t.Is .lparen "(" :=
  is_of_kind h (c := '(') (by simp [Rule.all]) hkind

namespace Derivation

variable {α : Type} {Item : α → List Token → Prop}

/-- What is absent takes nothing. -/
def Maybe (Item : α → List Token → Prop) : Option α → List Token → Prop
  | none, ts => ts = []
  | some a, ts => Item a ts

/-- A fixed token and what follows it. -/
def Then (kind : TokenKind) (text : String) (Item : α → List Token → Prop) (a : α)
    (ts : List Token) : Prop :=
  ∃ t tail, ts = t :: tail ∧ t.Is kind text ∧ Item a tail

theorem Sequence.concat {as : List α} {a : α} {ts ts' : List Token} (h : Sequence Item as ts)
    (ha : Item a ts') : Sequence Item (as ++ [a]) (ts ++ ts') := by
  induction h with
  | nil =>
    have last := Sequence.cons ha .nil
    rwa [List.append_nil] at last
  | cons first _ ih =>
    rw [List.append_assoc]
    exact .cons first ih

/-- An item and more after commas are a list. -/
theorem Listed.of_sequence {a : α} {as : List α} {ts ts' : List Token} (ha : Item a ts)
    (h : Sequence (Then .comma "," Item) as ts') : Listed Item (a :: as) (ts ++ ts') := by
  induction h generalizing a ts with
  | nil =>
    rw [List.append_nil]
    exact .one ha
  | cons first _ ih =>
    obtain ⟨comma, tail, rfl, hcomma, hitem⟩ := first
    exact .more ha hcomma (ih hitem)

/-- An item and the semicolons after it. -/
def Followed (Item : α → List Token → Prop) (a : α) (ts : List Token) : Prop :=
  ∃ pre semicolons, ts = pre ++ semicolons ∧ Item a pre ∧ Semicolons semicolons

theorem Separated.of_sequence {as : List α} {ts : List Token}
    (h : Sequence (Followed Item) as ts) : Separated Item as ts := by
  induction h with
  | nil => exact .nil
  | cons first _ ih =>
    obtain ⟨pre, semicolons, rfl, hitem, hsemicolons⟩ := first
    rw [List.append_assoc]
    exact .cons hitem hsemicolons ih

theorem firstLine_append {ts : List Token} (h : ts ≠ []) (ts' : List Token) :
    firstLine (ts ++ ts') = firstLine ts := by
  cases ts with
  | nil => exact absurd rfl h
  | cons t ts => rfl

/-- The first token is not among those after the one that is there for sure. -/
theorem firstLine_middle (ts ts' : List Token) (t : Token) (tail : List Token) :
    firstLine (ts ++ (ts' ++ t :: tail)) = firstLine (ts ++ (ts' ++ [t])) := by
  cases ts with
  | nil => cases ts' <;> rfl
  | cons => rfl

end Derivation

namespace Parser

variable {α β : Type}

/-- On these tokens, if they are the lexer's, what the parser takes stands in the relation to its
answer. -/
def TakesAt (ts : List Token) (p : Parser α) (D : α → List Token → Prop) : Prop :=
  Lexical ts → ∀ a rest, p ts = .ok (a, rest) → ∃ pre, ts = pre ++ rest ∧ D a pre

/-- Whenever the parser succeeds, what it has taken stands in the relation to its answer. -/
def Takes (p : Parser α) (D : α → List Token → Prop) : Prop :=
  ∀ ts, TakesAt ts p D

namespace TakesAt

variable {p : Parser α} {D E : α → List Token → Prop} {ts : List Token} {t : Token}

theorem mono (h : TakesAt ts p D) (hDE : ∀ a pre, D a pre → E a pre) : TakesAt ts p E := by
  intro lexical a rest hok
  obtain ⟨pre, hts, hD⟩ := h lexical a rest hok
  exact ⟨pre, hts, hDE a pre hD⟩

theorem isPrefix (h : TakesAt ts p D) : TakesAt ts p fun a pre => D a pre ∧ pre <+: ts := by
  intro lexical a rest hok
  obtain ⟨pre, hts, hD⟩ := h lexical a rest hok
  exact ⟨pre, hts, hD, rest, hts.symm⟩

theorem fail (e : Expectation) : TakesAt ts (Parser.fail e) D := by
  intro _ a rest hok
  cases hok

theorem pure {a : α} (h : D a []) : TakesAt ts (Pure.pure a) D := by
  rintro _ b rest ⟨⟩
  exact ⟨[], rfl, h⟩

theorem bind {k : α → Parser β} {F : β → List Token → Prop} (hp : TakesAt ts p D)
    (hk : ∀ a pre, D a pre → Takes (k a) fun b ts' => F b (pre ++ ts')) :
    TakesAt ts (p >>= k) F := by
  intro lexical b rest hok
  obtain ⟨a, mid, hfirst, hnext⟩ := bind_ok hok
  obtain ⟨pre, rfl, hD⟩ := hp lexical a mid hfirst
  obtain ⟨post, rfl, hF⟩ := hk a pre hD mid lexical.right b rest hnext
  exact ⟨pre ++ post, by rw [List.append_assoc], hF⟩

theorem map {f : α → β} {F : β → List Token → Prop} (hp : TakesAt ts p D)
    (hf : ∀ a pre, D a pre → F (f a) pre) : TakesAt ts (p >>= fun a => Pure.pure (f a)) F := by
  apply hp.bind
  intro a pre hD ts'
  apply pure
  rw [List.append_nil]
  exact hf a pre hD

/-- The first token is taken, and then what the parser takes. -/
theorem skip (h : TakesAt ts p fun a ts' => D a (t :: ts')) :
    TakesAt (t :: ts) (do Parser.skip; p) D := by
  intro lexical a rest hok
  obtain ⟨pre, rfl, hD⟩ := h lexical.tail a rest (skip_bind_ok hok)
  exact ⟨t :: pre, rfl, hD⟩

theorem pastFirst {rest? : Option (Parser α)} {otherwise : Parser α}
    (taken : ∀ r, rest? = some r → Takes r fun a ts' => D a (t :: ts'))
    (other : rest? = none → TakesAt (t :: ts) otherwise D) :
    TakesAt (t :: ts) (Parser.pastFirst rest? otherwise) D := by
  cases rest? with
  | none => exact other rfl
  | some r => exact skip (taken r rfl ts)

end TakesAt

namespace Takes

variable {p : Parser α} {D E : α → List Token → Prop} {kind : TokenKind} {text : String}

theorem mono (h : Takes p D) (hDE : ∀ a pre, D a pre → E a pre) : Takes p E :=
  fun ts => (h ts).mono hDE

theorem pure {a : α} (h : D a []) : Takes (Pure.pure a) D :=
  fun _ => .pure h

theorem fail (e : Expectation) : Takes (Parser.fail e) D :=
  fun _ => .fail e

theorem bind {k : α → Parser β} {F : β → List Token → Prop} (hp : Takes p D)
    (hk : ∀ a pre, D a pre → Takes (k a) fun b ts' => F b (pre ++ ts')) : Takes (p >>= k) F :=
  fun ts => (hp ts).bind hk

theorem map {f : α → β} {F : β → List Token → Prop} (hp : Takes p D)
    (hf : ∀ a pre, D a pre → F (f a) pre) : Takes (p >>= fun a => Pure.pure (f a)) F :=
  fun ts => (hp ts).map hf

/-- A line that is read off the next token is the first line of what is taken. -/
theorem currentLine {k : Nat → Parser β} {F : β → List Token → Prop}
    (h : ∀ line, Takes (k line) fun b pre => pre ≠ [] ∧ (line = firstLine pre → F b pre)) :
    Takes (Parser.currentLine >>= k) F := by
  intro ts lexical b rest hok
  obtain ⟨line, mid, hline, hok⟩ := bind_ok hok
  cases hline
  obtain ⟨pre, rfl, nonempty, hF⟩ := h _ ts lexical b rest hok
  exact ⟨pre, rfl, hF (firstLine_append nonempty rest)⟩

/-- Looking at the next token does not take it. -/
theorem peek {k : Option Token → Parser β} {F : β → List Token → Prop}
    (none : TakesAt [] (k none) F) (some : ∀ t ts, TakesAt (t :: ts) (k (some t)) F) :
    Takes (Parser.peek >>= k) F := by
  intro ts lexical b rest hok
  obtain ⟨next, mid, hnext, hok⟩ := bind_ok hok
  cases hnext
  cases ts with
  | nil => exact none lexical b rest hok
  | cons t ts => exact some t ts lexical b rest hok

/-- A word or symbol is looked for, and not taken. -/
theorem check {k : Bool → Parser β} {F : β → List Token → Prop} (spelled : Spelled kind text)
    (yes : ∀ t ts, t.Is kind text → TakesAt (t :: ts) (k true) F) (no : Takes (k false) F) :
    Takes (Parser.check text >>= k) F := by
  intro ts lexical b rest hok
  obtain ⟨found, mid, hfound, hok⟩ := bind_ok hok
  cases hfound
  cases ts with
  | nil => exact no [] lexical b rest hok
  | cons t ts =>
    cases htext : t.isText text with
    | false =>
      simp only [List.head?_cons, Option.map_some, Option.getD_some, htext] at hok
      exact no (t :: ts) lexical b rest hok
    | true =>
      simp only [List.head?_cons, Option.map_some, Option.getD_some, htext] at hok
      have is := Token.is_of_isText (lexical t List.mem_cons_self) spelled htext
      exact yes t ts is lexical b rest hok

theorem expect (spelled : Spelled kind text) :
    Takes (Parser.expect text) fun _ ts => ∃ t : Token, ts = [t] ∧ t.Is kind text := by
  apply check spelled
  · intro t ts is _ _ rest hok
    cases hok
    exact ⟨[t], rfl, t, rfl, is⟩
  · exact .fail _

theorem accept (spelled : Spelled kind text) : Takes (Parser.accept text) fun found ts =>
    (found = true ∧ ∃ t : Token, ts = [t] ∧ t.Is kind text) ∨ (found = false ∧ ts = []) := by
  apply check spelled
  · intro t ts is
    apply TakesAt.skip
    apply TakesAt.pure
    exact Or.inl ⟨rfl, t, rfl, is⟩
  · apply pure
    exact Or.inr ⟨rfl, rfl⟩

theorem name (role : NameRole) : Takes (Parser.name role) Named := by
  apply peek
  · exact .fail _
  · intro t ts
    by_cases hkind : t.kind = .identifier
    · simp only [hkind, if_true]
      exact .skip (.pure (.mk hkind))
    · simp only [hkind, if_false]
      exact .fail _

theorem optionally {wanted : Token → Option β} {q : Token → β → Parser α}
    (h : ∀ t b ts, IsLexeme t.kind t.text.toList → wanted t = some b →
      TakesAt (t :: ts) (q t b) D) : Takes (Parser.optionally wanted q) (Maybe D) := by
  apply peek
  · exact .pure rfl
  · intro t ts
    cases hw : wanted t with
    | none =>
      simp only [hw]
      exact .pure rfl
    | some b =>
      simp only [hw]
      intro lexical
      exact (h t b ts (lexical t List.mem_cons_self) hw).map (fun _ _ hD => hD) lexical

theorem whenNext {test : Token → Bool} {q : Token → Parser α}
    (h : ∀ t ts, IsLexeme t.kind t.text.toList → test t = true → TakesAt (t :: ts) (q t) D) :
    Takes (Parser.whenNext test q) (Maybe D) := by
  apply optionally
  intro t b ts lexeme hguard
  exact h t ts lexeme (Option.guard_eq_some_iff.mp hguard).2

theorem guarded (test : Token → Bool) (h : Takes p D) :
    Takes (Parser.whenNext test fun _ => p) (Maybe D) := by
  apply whenNext
  intro t ts _ _
  exact h (t :: ts)

theorem after (spelled : Spelled kind text) (h : Takes p D) :
    Takes (Parser.after text p) (Maybe (Then kind text D)) := by
  apply whenNext
  intro t ts lexeme htext
  apply TakesAt.skip
  apply (h ts).mono
  intro a pre hD
  exact ⟨t, pre, rfl, Token.is_of_isText lexeme spelled htext, hD⟩

/-- What one step makes of an answer, the repetition does: by induction on its bound. -/
theorem repeated {step : α → Parser (Option α)}
    (h : ∀ a done, D a done → Takes (step a) (Maybe fun b ts => D b (done ++ ts)))
    {a : α} {done : List Token} (start : D a done) :
    Takes (Parser.repeated step a) fun b ts => D b (done ++ ts) := by
  have rounds (bound : List Token) : ∀ a done, D a done →
      Takes (iterate step bound a) fun b ts => D b (done ++ ts) := by
    induction bound with
    | nil =>
      intro a done hD
      apply pure
      rwa [List.append_nil]
    | cons _ bound ih =>
      intro a done hD
      apply (h a done hD).bind
      intro found pre hfound
      cases found with
      | none =>
        cases hfound
        apply pure
        rw [List.append_nil, List.append_nil]
        exact hD
      | some b =>
        apply (ih b _ hfound).mono
        intro b' ts hD'
        rwa [List.append_assoc] at hD'
  exact fun ts => rounds ts a done start ts

theorem many {item : Parser (Option α)} (h : Takes item (Maybe D)) :
    Takes (Parser.many item) (Sequence D) := by
  have start : Sequence D [] [] := .nil
  refine repeated (D := Sequence D) ?_ start
  intro as done hdone
  apply h.map
  intro found pre hfound
  cases found with
  | none => exact hfound
  | some a => exact hdone.concat hfound

theorem commaSeparated (h : Takes p D) : Takes (Parser.commaSeparated p) (Listed D) := by
  apply h.bind
  intro first pre hfirst
  apply (many (after spelled_comma h)).map
  intro rest pre' hrest
  exact .of_sequence hfirst hrest

theorem parenthesized (h : Takes p D) : Takes (Parser.parenthesized p) (Parenthesized D) := by
  have items : Takes (listedItems p) fun as ts => (as = [] ∧ ts = []) ∨ Listed D as ts := by
    apply check spelled_rparen
    · intro t ts _
      apply TakesAt.pure
      exact Or.inl ⟨rfl, rfl⟩
    · apply (commaSeparated h).mono
      intro as ts has
      exact Or.inr has
  apply (expect spelled_lparen).bind
  rintro _ _ ⟨l, rfl, hl⟩
  apply items.bind
  intro as pre has
  apply (expect spelled_rparen).map
  rintro _ _ ⟨r, rfl, hr⟩
  rcases has with ⟨rfl, rfl⟩ | has
  · exact .empty hl hr
  · exact .items hl has hr

theorem unlessClosed (h : Takes p D) :
    Takes (Parser.many (Parser.unlessClosed p)) (Sequence D) :=
  many (guarded _ h)

theorem endSimple : Takes Parser.endSimple fun _ ts => Ending ts := by
  apply (accept spelled_semicolon).map
  rintro _ _ (⟨rfl, t, rfl, ht⟩ | ⟨rfl, rfl⟩)
  · exact .present ht
  · exact .absent

theorem skipSeparators : Takes Parser.skipSeparators fun _ ts => Semicolons ts := by
  apply (many (after spelled_semicolon (pure (D := fun _ ts => ts = []) rfl))).map
  intro units pre hpre
  induction hpre with
  | nil =>
    intro t ht
    cases ht
  | cons first _ ih =>
    obtain ⟨t, _, rfl, ht, rfl⟩ := first
    intro t' ht'
    rcases List.mem_cons.mp ht' with rfl | ht'
    · exact ht
    · exact ih t' ht'

end Takes

end Parser

end ClassScript
