import ClassScript.Proofs.Lookahead

/-!
# Completing what the tokens begin

A parser that has come to the end of the tokens, whether it failed there or not, can be given
tokens to go on with until it succeeds. Which tokens may follow then depends on the parser: after
an expression `)` and `;`, after a statement the end, a closing brace or `catch`.

The tokens added are a few fixed ones; an assignment sign is not among them, so that no name at the
end becomes a target.
-/

namespace ClassScript.Parser

variable {α β γ : Type} {n : Nat}

def aName : Token := ⟨.identifier, "a", 1, 1⟩

def openParen : Token := ⟨.lparen, "(", 1, 1⟩

def closeParen : Token := ⟨.rparen, ")", 1, 1⟩

def openBrace : Token := ⟨.lbrace, "\x7b", 1, 1⟩

def closeBrace : Token := ⟨.rbrace, "\x7d", 1, 1⟩

def aSemicolon : Token := ⟨.separator, ";", 1, 1⟩

def point : Token := ⟨.dot, ".", 1, 1⟩

def functionWord : Token := ⟨.keyword, "function", 1, 1⟩

def catchWord : Token := ⟨.keyword, "catch", 1, 1⟩

/-- The tokens used to complete. -/
def fillers : List Token :=
  [aName, openParen, closeParen, openBrace, closeBrace, aSemicolon, point, functionWord, catchWord]

/-- Each of them is what the scanner makes of its own text. -/
theorem fillers_scanned : ∀ t ∈ fillers, tokenize t.text = .ok [t] := by
  simp only [fillers, List.forall_mem_cons, List.not_mem_nil, false_implies, implies_true, and_true]
  exact ⟨rfl, rfl, rfl, rfl, rfl, rfl, rfl, rfl, rfl⟩

theorem fillers_isText : ∀ t ∈ fillers, t.isText t.text = true := by
  decide

/-- `p` comes to the end of the tokens. -/
def Open (p : Parser α) (ts : List Token) : Prop :=
  ∃ out, p ts = ended out []

/-- Where `p` comes to the end of `ts`, some more tokens make it succeed before any `F`. -/
def CompletesAt (F : Follow) (p : Parser α) (ts : List Token) : Prop :=
  Open p ts → ∃ c a, c ⊆ fillers ∧ ∀ next, F next → Reads p (ts ++ c) next (.ok a)

/-- The same for all lists of fewer than `n` tokens but the empty one. -/
def Finishes (n : Nat) (F : Follow) (p : Parser α) : Prop :=
  ∀ ts, ts ≠ [] → ts.length < n → CompletesAt F p ts

/-- With some tokens `p` succeeds before any `F`, and what it starts with is in `H`. -/
def Fresh (H F : Follow) (p : Parser α) : Prop :=
  ∃ c a, c ⊆ fillers ∧ ∀ next, F next → H (c.head?.or next) ∧ Reads p c next (.ok a)

/-- `p` can be completed, at its start before an `H`, before any `F`. -/
structure Completes (n : Nat) (H F : Follow) (p : Parser α) : Prop where
  fresh : Fresh H F p
  finishes : Finishes n F p

section Composition

variable {p : Parser α} {k : α → Parser β} {F G H : Follow} {ts : List Token}

theorem Fresh.pure {a : α} (le : ∀ next, F next → H next) : Fresh H F (Pure.pure a : Parser α) :=
  ⟨[], a, List.nil_subset _, fun next hnext => ⟨le next hnext, .pure a⟩⟩

theorem Fresh.bind (hp : Fresh H G p) (hk : ∀ a, Fresh G F (k a)) : Fresh H F (p >>= k) := by
  obtain ⟨c, a, hc, hread⟩ := hp
  obtain ⟨c', b, hc', hread'⟩ := hk a
  refine ⟨c ++ c', b, List.append_subset.mpr ⟨hc, hc'⟩, fun next hnext => ?_⟩
  obtain ⟨hG, hnext⟩ := hread' next hnext
  obtain ⟨hH, hfirst⟩ := hread _ hG
  refine ⟨?_, hfirst.bind hnext⟩
  rwa [List.head?_append, Option.or_assoc]

theorem Fresh.mono {H' F' : Follow} (h : Fresh H F p) (hH : ∀ next, H next → H' next)
    (hF : ∀ next, F' next → F next) : Fresh H' F' p := by
  obtain ⟨c, a, hc, hread⟩ := h
  refine ⟨c, a, hc, fun next hnext => ?_⟩
  obtain ⟨hhead, hp⟩ := hread next (hF next hnext)
  exact ⟨hH _ hhead, hp⟩

/-- A parser that leaves a token is not at the end. -/
theorem CompletesAt.of_left (out : Except Expectation α) {rest : List Token} (left : rest ≠ [])
    (h : p ts = ended out rest) : CompletesAt F p ts := by
  rintro ⟨out', hend⟩
  exact absurd (ended_inj (h.symm.trans hend)).2 left

/-- A token that is read whatever follows. -/
theorem CompletesAt.of_token {a : α} {t : Token} (h : ∀ next, Reads p [t] next (.ok a)) :
    CompletesAt F p (t :: ts) := by
  rintro ⟨out, hend⟩
  have hrest := (ended_inj ((h _ ts rfl).symm.trans hend)).2
  refine ⟨[], a, List.nil_subset _, fun next _ => ?_⟩
  rw [hrest, List.append_nil]
  exact h next

theorem CompletesAt.of_head {q : Parser α} {t : Token}
    (same : ∀ ts, ts.head? = some t → p ts = q ts) (h : CompletesAt F q (t :: ts)) :
    CompletesAt F p (t :: ts) := by
  rintro ⟨out, hend⟩
  obtain ⟨c, a, hc, hread⟩ := h ⟨out, (same _ rfl).symm.trans hend⟩
  exact ⟨c, a, hc, fun next hnext => (hread next hnext).of_head same⟩

/-- The same where the first two tokens decide. -/
theorem CompletesAt.of_two {q : Parser α} {t u : Token}
    (same : ∀ ts, p (t :: u :: ts) = q (t :: u :: ts)) (h : CompletesAt F q (t :: u :: ts)) :
    CompletesAt F p (t :: u :: ts) := by
  rintro ⟨out, hend⟩
  obtain ⟨c, a, hc, hread⟩ := h ⟨out, (same _).symm.trans hend⟩
  refine ⟨c, a, hc, fun next hnext rest hrest => ?_⟩
  exact (same _).trans (hread next hnext rest hrest)

theorem CompletesAt.mono {F' : Follow} (h : CompletesAt F p ts) (hF : ∀ next, F' next → F next) :
    CompletesAt F' p ts := by
  intro hopen
  obtain ⟨c, a, hc, hread⟩ := h hopen
  exact ⟨c, a, hc, fun next hnext => hread next (hF next hnext)⟩

/-- Two parts come to the end with the first one, or the second one does on what the first left. -/
theorem Open.bind_cases (h : Open (p >>= k) ts) :
    Open p ts ∨ ∃ a rest, rest ≠ [] ∧ p ts = .ok (a, rest) ∧ Open (k a) rest := by
  obtain ⟨out, hend⟩ := h
  rw [bind_apply] at hend
  cases hp : p ts with
  | error e =>
    rw [hp] at hend
    cases out with
    | ok b => cases hend
    | error expected =>
      cases hend
      exact Or.inl ⟨.error expected, hp⟩
  | ok r =>
    rw [hp] at hend
    by_cases left : r.2 = []
    · exact Or.inl ⟨.ok r.1, by rw [hp, ended_ok, ← left]⟩
    · exact Or.inr ⟨r.1, r.2, left, rfl, out, hend⟩

theorem not_open_pure {a : α} (left : ts ≠ []) : ¬ Open (Pure.pure a : Parser α) ts := by
  rintro ⟨out, hend⟩
  exact left (ended_inj (show ended (.ok a) ts = _ from hend)).2

theorem head?_of_left {rest c : List Token} {next : Option Token} (left : rest ≠ []) :
    (rest ++ c).head?.or next = rest.head? := by
  cases rest with
  | nil => exact absurd rfl left
  | cons t rest => rfl

theorem CompletesAt.bind_pure {f : α → β} (h : CompletesAt F p ts) :
    CompletesAt F (p >>= fun a => Pure.pure (f a)) ts := by
  intro hopen
  rcases hopen.bind_cases with hfirst | ⟨a, rest, left, _, hpure⟩
  · obtain ⟨c, a, hc, hread⟩ := h hfirst
    exact ⟨c, f a, hc, fun next hnext => (hread next hnext).bind_pure⟩
  · exact absurd hpure (not_open_pure left)

/-- Where the first part comes to the end it is completed and the second part starts afresh. -/
theorem CompletesAt.bind (self : AlikeAt n p p ts) (hp : CompletesAt G p ts)
    (hk : ∀ a rest, rest ≠ [] → p ts = .ok (a, rest) → CompletesAt F (k a) rest)
    (fresh : ∀ a, Fresh G F (k a)) : CompletesAt F (p >>= k) ts := by
  intro hopen
  rcases hopen.bind_cases with hfirst | ⟨a, rest, left, hok, hsecond⟩
  · obtain ⟨c, a, hc, hread⟩ := hp hfirst
    obtain ⟨c', b, hc', hread'⟩ := fresh a
    refine ⟨c ++ c', b, List.append_subset.mpr ⟨hc, hc'⟩, fun next hnext => ?_⟩
    obtain ⟨hG, hnext⟩ := hread' next hnext
    rw [← List.append_assoc]
    exact (hread _ hG).bind hnext
  · obtain ⟨pre, rfl, hread⟩ := self.reads_of_ended (show _ = ended (.ok a) rest from hok)
    obtain ⟨c, b, hc, hread'⟩ := hk a rest left hok hsecond
    refine ⟨c, b, hc, fun next hnext => ?_⟩
    rw [List.append_assoc]
    exact Reads.bind (head?_of_left left ▸ hread) (hread' next hnext)

theorem Fresh.completesAt (h : Fresh H F p) : CompletesAt F p [] := by
  obtain ⟨c, a, hc, hread⟩ := h
  exact fun _ => ⟨c, a, hc, fun next hnext => (hread next hnext).2⟩

theorem CompletesAt.skip {t : Token} (h : CompletesAt F p ts) :
    CompletesAt F (do skip; p) (t :: ts) := by
  rintro ⟨out, hend⟩
  obtain ⟨c, a, hc, hread⟩ := h ⟨out, hend⟩
  exact ⟨c, a, hc, fun next hnext => (reads_skip t).bind (hread next hnext)⟩

theorem Finishes.skip (h : Completes n H F p) : Finishes (n + 1) F (do skip; p) := by
  intro ts left short
  rcases ts with _ | ⟨t, ts⟩
  · exact absurd rfl left
  rw [List.length_cons] at short
  by_cases last : ts = []
  · rw [last]
    exact h.fresh.completesAt.skip
  · exact (h.finishes ts last (by omega)).skip

theorem Finishes.le {m : Nat} (h : Finishes n F p) (le : m ≤ n) : Finishes m F p :=
  fun ts left short => h ts left (Nat.lt_of_lt_of_le short le)

theorem Finishes.bind (self : Alike n p p) (hp : Finishes n G p) (hk : ∀ a, Finishes n F (k a))
    (fresh : ∀ a, Fresh G F (k a)) : Finishes n F (p >>= k) := by
  intro ts left short
  refine (hp ts left short).bind (self ts) (fun a rest left' hok => ?_) fresh
  have hle := (self ts).length_le hok
  exact hk a rest left' (by omega)

theorem Finishes.pure {a : α} : Finishes n F (Pure.pure a : Parser α) :=
  fun _ left _ => .of_left (.ok a) left rfl

theorem Finishes.bind_pure {f : α → β} (h : Finishes n F p) :
    Finishes n F (p >>= fun a => Pure.pure (f a)) :=
  fun ts left short => (h ts left short).bind_pure

theorem Completes.bind (self : Alike n p p) (hp : Completes n H G p)
    (hk : ∀ a, Completes n G F (k a)) : Completes n H F (p >>= k) :=
  ⟨hp.fresh.bind fun a => (hk a).fresh,
    hp.finishes.bind self (fun a => (hk a).finishes) fun a => (hk a).fresh⟩

theorem Completes.pure {a : α} : Completes n F F (Pure.pure a : Parser α) :=
  ⟨.pure fun _ => id, .pure⟩

theorem Completes.bind_pure {f : α → β} (h : Completes n H F p) :
    Completes n H F (p >>= fun a => Pure.pure (f a)) :=
  ⟨h.fresh.bind fun _ => .pure fun _ => id, h.finishes.bind_pure⟩

theorem Completes.mono {H' F' : Follow} (h : Completes n H F p) (hH : ∀ next, H next → H' next)
    (hF : ∀ next, F' next → F next) : Completes n H' F' p :=
  ⟨h.fresh.mono hH hF, fun ts left short => (h.finishes ts left short).mono hF⟩

/-- What starts with `t` starts with an `H` if `t` is one. -/
theorem Completes.starting {t : Token} (h : Completes n (· = some t) F p) (hH : H (some t)) :
    Completes n H F p :=
  h.mono (fun _ hnext => hnext ▸ hH) fun _ => id

theorem Completes.freely (h : Completes n H F p) : Completes n anything F p :=
  h.mono (fun _ _ => trivial) fun _ => id

/-- What is complete before anything is complete before `F`. -/
theorem Completes.before (h : Completes n H anything p) : Completes n H F p :=
  h.mono (fun _ => id) fun _ _ => trivial

end Composition

section Optional

/-- No token that may follow passes the test. -/
def Avoids (F : Follow) (test : Token → Bool) : Prop :=
  ∀ t, F (some t) → test t = false

theorem Avoids.guard {F : Follow} {test : Token → Bool} (h : Avoids F test) (next : Option Token)
    (hnext : F next) : next.bind (Option.guard test) = none := by
  cases next with
  | none => rfl
  | some t => simp [h t hnext]

variable {wanted : Token → Option β} {p : Token → β → Parser α} {k : Option α → Parser γ}
  {F G H : Follow} {ts : List Token} {t : Token}

theorem Finishes.optionally
    (hsome : ∀ t b, wanted t = some b → Finishes n F (p t b >>= fun a => k (some a)))
    (hnone : Finishes n F (k none)) : Finishes n F (Parser.optionally wanted p >>= k) := by
  intro ts left short
  rcases ts with _ | ⟨t, ts⟩
  · exact absurd rfl left
  cases hw : wanted t with
  | none => exact .of_head (fun _ => optionally_bind_none hw) (hnone _ left short)
  | some b => exact .of_head (fun _ => optionally_bind_some hw) (hsome t b hw _ left short)

/-- The option is not taken. -/
theorem Fresh.decline (h : Fresh H F (k none)) (hH : ∀ next, H next → next.bind wanted = none) :
    Fresh H F (Parser.optionally wanted p >>= k) := by
  obtain ⟨c, a, hc, hread⟩ := h
  refine ⟨c, a, hc, fun next hnext => ?_⟩
  obtain ⟨hhead, hk⟩ := hread next hnext
  exact ⟨hhead, (reads_optionally_none (hH _ hhead)).bind_nil hk⟩

variable {text : String} {q : Parser α}

theorem Finishes.after (hsome : Completes n anything F (q >>= fun a => k (some a)))
    (hnone : Finishes n F (k none)) : Finishes n F (Parser.after text q >>= k) := by
  refine .optionally (fun t b _ => ?_) hnone
  have h := (Finishes.skip hsome).le (Nat.le_succ n)
  rwa [bind_assoc]

/-- The option is taken. -/
theorem Fresh.after (ht : t ∈ fillers) (htext : t.isText text = true) (hH : H (some t))
    (h : Fresh anything F (q >>= fun a => k (some a))) : Fresh H F (Parser.after text q >>= k) := by
  obtain ⟨c, a, hc, hread⟩ := h
  refine ⟨t :: c, a, List.cons_subset.mpr ⟨ht, hc⟩, fun next hnext => ⟨hH, ?_⟩⟩
  have hskip : Reads (do Parser.skip; q >>= fun a => k (some a)) (t :: c) next (.ok a) :=
    (reads_skip t).bind (hread next hnext).2
  refine Reads.of_head (fun ts hhead => ?_) hskip
  rw [Parser.after, whenNext, optionally_bind_some (b := t) ?_ hhead]
  · rfl
  · simp [htext]

theorem Completes.optionally (hH : ∀ next, H next → next.bind wanted = none)
    (hsome : ∀ t b, wanted t = some b → Finishes n F (p t b >>= fun a => k (some a)))
    (hnone : Completes n H F (k none)) : Completes n H F (Parser.optionally wanted p >>= k) :=
  ⟨hnone.fresh.decline hH, .optionally hsome hnone.finishes⟩

theorem Completes.whenNext {test : Token → Bool} {p : Token → Parser α} (hH : Avoids H test)
    (hsome : ∀ t, Finishes n F (p t >>= fun a => k (some a)))
    (hnone : Completes n H F (k none)) : Completes n H F (Parser.whenNext test p >>= k) :=
  .optionally hH.guard (fun t _ _ => hsome t) hnone

/-- An option that what may follow does not take. -/
theorem Completes.after (hH : Avoids H (Token.isText · text))
    (hsome : Completes n anything F (q >>= fun a => k (some a)))
    (hnone : Completes n H F (k none)) : Completes n H F (Parser.after text q >>= k) :=
  ⟨hnone.fresh.decline hH.guard, .after hsome hnone.finishes⟩

end Optional

section Primitives

variable {F H : Follow}

theorem completes_expect (t : Token) (ht : t ∈ fillers) :
    Completes n (· = some t) anything (expect t.text) := by
  have htext := fillers_isText t ht
  refine ⟨⟨[t], (), by simpa using ht, fun next _ => ⟨rfl, reads_expect htext⟩⟩, ?_⟩
  intro ts left _
  cases ts with
  | nil => exact absurd rfl left
  | cons u ts =>
    cases hu : u.isText t.text with
    | true => exact .of_token fun _ => reads_expect hu
    | false =>
      have hnot : ∀ v, (u :: ts).head? = some v → v.isText t.text = false := by
        rintro v ⟨⟩
        exact hu
      exact .of_left (.error _) left (reads_expect_not hnot (u :: ts) rfl)

theorem completes_name (role : NameRole) :
    Completes n (· = some aName) anything (name role) := by
  refine ⟨⟨[aName], "a", by decide, fun next _ => ⟨rfl, reads_name role rfl⟩⟩, ?_⟩
  intro ts left _
  cases ts with
  | nil => exact absurd rfl left
  | cons u ts =>
    by_cases hu : u.kind = .identifier
    · exact .of_token fun _ => reads_name role hu
    · have hnot : ∀ v, (u :: ts).head? = some v → v.kind ≠ .identifier := by
        rintro v ⟨⟩
        exact hu
      exact .of_left (.error _) left (reads_name_not role hnot (u :: ts) rfl)

theorem finishes_accept (text : String) : Finishes n F (accept text) := by
  intro ts left _
  cases ts with
  | nil => exact absurd rfl left
  | cons u ts =>
    cases hu : u.isText text with
    | true => exact .of_token fun _ => reads_accept hu
    | false =>
      have hnot : ∀ v, (u :: ts).head? = some v → v.isText text = false := by
        rintro v ⟨⟩
        exact hu
      exact .of_left (.ok false) left (reads_accept_not hnot (u :: ts) rfl)

theorem completes_endSimple : Completes n (· = some aSemicolon) anything endSimple := by
  have fresh : Fresh (· = some aSemicolon) anything (accept ";") :=
    ⟨[aSemicolon], true, by decide, fun next _ => ⟨rfl, reads_accept rfl⟩⟩
  exact Completes.bind_pure ⟨fresh, finishes_accept ";"⟩

theorem Completes.currentLine {k : Nat → Parser α} {t : Token}
    (h : ∀ line, Completes n (· = some t) F (k line)) :
    Completes n (· = some t) F (currentLine >>= k) := by
  obtain ⟨c, a, hc, hread⟩ := (h t.line).fresh
  refine ⟨⟨c, a, hc, fun next hnext => ?_⟩, fun ts left short => ?_⟩
  · obtain ⟨hhead, hk⟩ := hread next hnext
    refine ⟨hhead, reads_currentLine.bind_nil ?_⟩
    rw [hhead]
    exact hk
  · rcases ts with _ | ⟨u, ts⟩
    · exact absurd rfl left
    refine .of_head (fun ts' hhead => ?_) ((h u.line).finishes (u :: ts) left short)
    rw [bind_apply, Parser.currentLine, hhead]
    rfl

end Primitives

section Repetition

variable {F G H : Follow}

theorem Completes.repeated {step : α → Parser (Option α)} (self : ∀ a, Alike n (step a) (step a))
    (advances : ∀ a, Advances (step a))
    (declines : ∀ a next, F next → Reads (step a) [] next (.ok none))
    (h : ∀ a, Finishes n F (step a)) (a : α) : Completes n F F (repeated step a) := by
  have nothing (a : α) (next : Option Token) (hnext : F next) : ReadsFrom step a [] next (.ok a) :=
    .last (declines a next hnext)
  -- one step that comes to the end is completed, and no other follows
  have one (a : α) (ts : List Token) (left : ts ≠ []) (short : ts.length < n)
      (hopen : Open (step a) ts) :
      ∃ c b, c ⊆ fillers ∧ ∀ next, F next → ReadsFrom step a (ts ++ c) next (.ok b) := by
    obtain ⟨c, b, hc, hread⟩ := h a ts left short hopen
    cases b with
    | none => exact ⟨c, a, hc, fun next hnext => .last (hread next hnext)⟩
    | some b =>
      refine ⟨c, b, hc, fun next hnext => ?_⟩
      have taken : ts ++ c ≠ [] := List.append_ne_nil_of_left_ne_nil left c
      have hcons := ReadsFrom.cons taken (hread next hnext) (nothing b next hnext)
      rwa [List.append_nil] at hcons
  have main (bound ts : List Token) (a : α) (hbound : ts.length ≤ bound.length)
      (short : ts.length < n) (hopen : Open (iterate step bound a) ts) :
      ∃ c b, c ⊆ fillers ∧ ∀ next, F next → ReadsFrom step a (ts ++ c) next (.ok b) := by
    induction bound generalizing ts a with
    | nil =>
      rw [List.length_eq_zero_iff.mp (Nat.le_zero.mp hbound)]
      exact ⟨[], a, List.nil_subset _, nothing a⟩
    | cons t bound ih =>
      by_cases left : ts = []
      · rw [left]
        exact ⟨[], a, List.nil_subset _, nothing a⟩
      rcases hopen.bind_cases with hstep | ⟨b, rest, hrest, hok, hmore⟩
      · exact one a ts left short hstep
      cases b with
      | none => exact absurd hmore (not_open_pure hrest)
      | some b =>
        have hlt := advances a _ b rest hok
        obtain ⟨pre, rfl, hread⟩ :=
          (self a ts).reads_of_ended (show _ = ended (.ok (some b)) rest from hok)
        have taken : pre ≠ [] := by rintro rfl; simp at hlt
        simp only [List.length_cons] at hbound
        obtain ⟨c, last, hc, hreads⟩ := ih rest b (by omega) (by omega) hmore
        refine ⟨c, last, hc, fun next hnext => ?_⟩
        rw [List.append_assoc]
        exact ReadsFrom.cons taken (head?_of_left hrest ▸ hread) (hreads next hnext)
  refine ⟨⟨[], a, List.nil_subset _, fun next hnext => ⟨hnext, (nothing a next hnext).reads⟩⟩, ?_⟩
  intro ts left short hopen
  obtain ⟨c, b, hc, hreads⟩ := main ts ts a (Nat.le_refl _) short hopen
  exact ⟨c, b, hc, fun next hnext => (hreads next hnext).reads⟩

theorem Completes.many {item : Parser (Option α)} (self : Alike n item item)
    (advances : Advances item) (declines : ∀ next, F next → Reads item [] next (.ok none))
    (h : Finishes n F item) : Completes n F F (many item) :=
  .repeated (fun _ ts => (self ts).bind fun _ _ _ => .pure _) (advances_oneMore advances)
    (fun _ next hnext => (declines next hnext).bind_pure) (fun _ => h.bind_pure) []

theorem Avoids.declines {test : Token → Bool} {p : Token → Parser α} (h : Avoids F test)
    (next : Option Token) (hnext : F next) : Reads (whenNext test p) [] next (.ok none) :=
  reads_optionally_none (h.guard next hnext)

theorem finishes_optionally {wanted : Token → Option β} {p : Token → β → Parser α}
    (h : ∀ t b, wanted t = some b → Finishes n F (p t b)) : Finishes n F (optionally wanted p) := by
  have hpure : Finishes n F (optionally wanted p >>= Pure.pure) :=
    .optionally (fun t b hw => (h t b hw).bind_pure) .pure
  rwa [bind_pure] at hpure

theorem finishes_whenNext {test : Token → Bool} {p : Token → Parser α}
    (h : ∀ t, Finishes n F (p t)) : Finishes n F (whenNext test p) :=
  finishes_optionally fun t _ _ => h t

theorem finishes_after {text : String} {p : Parser α} (h : Completes n H F p) :
    Finishes (n + 1) F (after text p) :=
  finishes_whenNext fun _ => .skip h

theorem completes_commaSeparated {item : Parser α} (self : Alike n item item)
    (hF : Avoids F (Token.isText · ",")) (h : Completes n H F item) :
    Completes n H F (commaSeparated item) := by
  have more : Completes n F F (many (after "," item)) :=
    .many (fun _ => (alikeAt_after self).mono (Nat.le_succ n)) (advances_after self) hF.declines
      ((finishes_after h).le (Nat.le_succ n))
  exact h.bind self fun _ => more.bind_pure

/-- The closing parenthesis alone. -/
def beforeClose : Follow := fun next => next = some closeParen

theorem completes_listedItems {item : Parser α} (self : Alike n item item)
    (h : Completes n H beforeClose item) :
    Completes n beforeClose beforeClose (listedItems item) := by
  have hcomma : Avoids beforeClose (Token.isText · ",") := by
    rintro t ⟨⟩
    rfl
  refine ⟨⟨[], [], List.nil_subset _, ?_⟩, ?_⟩
  · rintro next rfl
    exact ⟨rfl, (reads_check ")").bind_nil (.pure [])⟩
  · intro ts left short
    cases ts with
    | nil => exact absurd rfl left
    | cons t ts =>
      have hcheck (ts' : List Token) (hhead : ts'.head? = some t) : listedItems item ts' =
          (if t.isText ")" then Pure.pure [] else commaSeparated item) ts' := by
        rw [listedItems, bind_apply]
        simp only [check, hhead, Option.map_some, Option.getD_some]
      refine .of_head hcheck ?_
      split
      · exact Finishes.pure _ left short
      · exact (completes_commaSeparated self hcomma h).finishes _ left short

theorem completes_parenthesized {item : Parser α} (self : Alike n item item)
    (h : Completes n H beforeClose item) :
    Completes n (· = some openParen) anything (parenthesized item) := by
  refine (completes_expect openParen (by decide)).bind (alike_expect _) fun _ => ?_
  refine (completes_listedItems self h).freely.bind (alike_listedItems self) fun _ => ?_
  exact .bind_pure (completes_expect closeParen (by decide))

theorem completes_skipSeparators (hF : Avoids F (Token.isText · ";")) :
    Completes n F F skipSeparators := by
  have nothing : Alike n (pure () : Parser Unit) (pure ()) := fun _ => .pure ()
  have h : Completes n F F (many (after ";" (pure ()))) :=
    .many (fun _ => (alikeAt_after nothing).mono (Nat.le_succ n)) (advances_after nothing)
      hF.declines ((finishes_after .pure).le (Nat.le_succ n))
  exact h.bind_pure

/-- The closing brace alone. -/
def beforeBrace : Follow := fun next => next = some closeBrace

theorem completes_unlessClosed {item : Parser α} (self : Alike n item item)
    (consumes : Consumes item) (h : Finishes n beforeBrace item) :
    Completes n beforeBrace beforeBrace (many (unlessClosed item)) := by
  have hbrace : Avoids beforeBrace (fun t => !t.isText "\x7d") := by
    rintro t ⟨⟩
    rfl
  exact .many (fun _ => alikeAt_whenNext fun _ _ _ _ => self _)
    (advances_whenNext fun _ _ => consumes) hbrace.declines (finishes_whenNext fun _ => h)

theorem completes_inBraces {item : Parser α} (self : Alike n item item) (consumes : Consumes item)
    (h : Finishes n beforeBrace item) :
    Completes n (· = some openBrace) anything (inBraces item) := by
  have members := completes_unlessClosed self consumes h
  refine (completes_expect openBrace (by decide)).bind (alike_expect _) fun _ => ?_
  refine members.freely.bind (alike_unlessClosed consumes self) fun _ => ?_
  exact .bind_pure (completes_expect closeBrace (by decide))

end Repetition

end ClassScript.Parser
