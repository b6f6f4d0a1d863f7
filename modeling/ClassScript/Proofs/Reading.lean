import ClassScript.Grammar.Basic

/-!
# How parsers read

A parser reads a part of the tokens and looks at one token more. `Reads p pre next out` says so of
one run: `p` takes exactly `pre` when `next` follows and ends with `out`, whatever comes after
`next`. `AlikeAt n p q ts` says that `p` and `q` have the same run on `ts`, except that `p` may find
a list of at least `n` tokens too deep.

A repetition is bounded by the tokens that are left. Its runs are stated for every bound that is
large enough, so that bounds play no part elsewhere.
-/

namespace ClassScript.Parser

variable {α β γ : Type}

/-- What a parser answers when it ends with `rest` in front of it. -/
def ended (out : Except Expectation α) (rest : List Token) : Except ParseFailure (α × List Token) :=
  match out with
  | .ok a => .ok (a, rest)
  | .error e => .error (.unexpected ⟨e, rest⟩)

@[simp] theorem ended_ok (a : α) (rest : List Token) : ended (.ok a) rest = .ok (a, rest) := rfl

theorem ended_inj {out out' : Except Expectation α} {rest rest' : List Token}
    (h : ended out rest = ended out' rest') : out = out' ∧ rest = rest' := by
  cases out <;> cases out' <;> cases h <;> exact ⟨rfl, rfl⟩

/-- `p` takes `pre` when `next` follows and ends with `out`, whatever comes after `next`. -/
def Reads (p : Parser α) (pre : List Token) (next : Option Token)
    (out : Except Expectation α) : Prop :=
  ∀ rest, rest.head? = next → p (pre ++ rest) = ended out rest

/-- What may come next; none is the end of the tokens. -/
abbrev Follow := Option Token → Prop

def anything : Follow := fun _ => True

theorem head?_append_eq (pre rest : List Token) {next : Option Token} (h : rest.head? = next) :
    (pre ++ rest).head? = pre.head?.or next := by
  rw [List.head?_append, h]

namespace Reads

variable {p : Parser α} {k : α → Parser β} {pre pre' : List Token} {next : Option Token} {a : α}
  {e : Expectation}

theorem pure (a : α) : Reads (Pure.pure a) [] next (.ok a) :=
  fun _ _ => rfl

theorem bind {out : Except Expectation β} (hp : Reads p pre (pre'.head?.or next) (.ok a))
    (hk : Reads (k a) pre' next out) : Reads (p >>= k) (pre ++ pre') next out := by
  intro rest hrest
  rw [List.append_assoc, bind_apply, hp _ (head?_append_eq pre' rest hrest)]
  exact hk rest hrest

/-- A step that takes nothing leaves the rest to what follows. -/
theorem bind_nil {out : Except Expectation β} (hp : Reads p [] (pre.head?.or next) (.ok a))
    (hk : Reads (k a) pre next out) : Reads (p >>= k) pre next out :=
  hp.bind hk

/-- What follows takes nothing. -/
theorem bind_last {out : Except Expectation β} (hp : Reads p pre next (.ok a))
    (hk : Reads (k a) [] next out) : Reads (p >>= k) pre next out := by
  have hp' : Reads p pre (([] : List Token).head?.or next) (.ok a) := hp
  have h := hp'.bind hk
  rwa [List.append_nil] at h

theorem bind_error (hp : Reads p pre next (.error e)) : Reads (p >>= k) pre next (.error e) := by
  intro rest hrest
  rw [bind_apply, hp rest hrest]
  rfl

theorem bind_pure {f : α → β} (hp : Reads p pre next (.ok a)) :
    Reads (p >>= fun a => Pure.pure (f a)) pre next (.ok (f a)) :=
  hp.bind_last (.pure (f a))

/-- What a parser reads may be read off another one that does the same from that token on. -/
theorem of_head {p' : Parser α} {out : Except Expectation α}
    (same : ∀ ts, ts.head? = pre.head?.or next → p ts = p' ts) (h : Reads p' pre next out) :
    Reads p pre next out := by
  intro rest hrest
  rw [same _ (head?_append_eq pre rest hrest)]
  exact h rest hrest

end Reads

section Primitives

variable {next : Option Token} {t : Token}

theorem reads_fail (e : Expectation) : Reads (fail e : Parser α) [] next (.error e) :=
  fun _ _ => rfl

theorem reads_peek : Reads peek [] next (.ok next) := by
  rintro rest rfl
  rfl

theorem reads_currentLine :
    Reads currentLine [] next (.ok ((next.map Token.line).getD 0)) := by
  rintro rest rfl
  rfl

theorem reads_skip (t : Token) : Reads skip [t] next (.ok ()) :=
  fun _ _ => rfl

theorem reads_check (text : String) :
    Reads (check text) [] next (.ok ((next.map (Token.isText · text)).getD false)) := by
  rintro rest rfl
  rfl

variable {text : String}

theorem reads_accept (h : t.isText text = true) : Reads (accept text) [t] next (.ok true) := by
  refine (reads_check text).bind_nil ?_
  simp only [List.head?_cons, Option.some_or, Option.map_some, Option.getD_some, h, if_true]
  exact (reads_skip t).bind_pure (f := fun _ => true)

theorem reads_accept_not (h : ∀ t, next = some t → t.isText text = false) :
    Reads (accept text) [] next (.ok false) := by
  refine (reads_check text).bind_nil ?_
  cases next with
  | none => exact .pure false
  | some t =>
    simp only [List.head?_nil, Option.none_or, Option.map_some, Option.getD_some, h t rfl]
    exact .pure false

theorem reads_expect (h : t.isText text = true) : Reads (expect text) [t] next (.ok ()) := by
  refine (reads_check text).bind_nil ?_
  simp only [List.head?_cons, Option.some_or, Option.map_some, Option.getD_some, h, if_true]
  exact reads_skip t

theorem reads_expect_not (h : ∀ t, next = some t → t.isText text = false) :
    Reads (expect text) [] next (.error (.symbol text)) := by
  refine (reads_check text).bind_nil ?_
  cases next with
  | none => exact reads_fail _
  | some t =>
    simp only [List.head?_nil, Option.none_or, Option.map_some, Option.getD_some, h t rfl]
    exact reads_fail _

theorem reads_name (role : NameRole) (h : t.kind = .identifier) :
    Reads (name role) [t] next (.ok t.text) := by
  refine reads_peek.bind_nil ?_
  simp only [List.head?_cons, Option.some_or, h, if_true]
  exact (reads_skip t).bind_pure (f := fun _ => t.text)

theorem reads_name_not (role : NameRole) (h : ∀ t, next = some t → t.kind ≠ .identifier) :
    Reads (name role) [] next (.error (.name role)) := by
  refine reads_peek.bind_nil ?_
  cases next with
  | none => exact reads_fail _
  | some t =>
    simp only [List.head?_nil, Option.none_or, h t rfl, if_false]
    exact reads_fail _

variable {wanted : Token → Option β} {p : Token → β → Parser α} {b : β} {pre : List Token}

theorem reads_optionally_none (h : next.bind wanted = none) :
    Reads (optionally wanted p) [] next (.ok none) := by
  refine reads_peek.bind_nil ?_
  cases next with
  | none => exact .pure none
  | some t =>
    have ht : wanted t = none := h
    simp only [List.head?_nil, Option.none_or, ht]
    exact .pure none

theorem reads_optionally {a : α} (hnext : pre.head?.or next = some t) (hw : wanted t = some b)
    (hp : Reads (p t b) pre next (.ok a)) :
    Reads (optionally wanted p) pre next (.ok (some a)) := by
  refine reads_peek.bind_nil ?_
  simp only [hnext, hw]
  exact hp.bind_pure

theorem reads_whenNext {test : Token → Bool} {p : Token → Parser α} {a : α}
    (hnext : pre.head?.or next = some t) (ht : test t = true) (hp : Reads (p t) pre next (.ok a)) :
    Reads (whenNext test p) pre next (.ok (some a)) := by
  have hw : Option.guard test t = some t := by simp [ht]
  exact reads_optionally (p := fun t _ => p t) hnext hw hp

theorem optionally_bind_none {k : Option α → Parser γ} {ts : List Token} (hw : wanted t = none)
    (hhead : ts.head? = some t) : (optionally wanted p >>= k) ts = k none ts := by
  rw [bind_apply, optionally, bind_apply]
  simp only [peek, hhead, hw, pure_apply]

theorem optionally_bind_some {k : Option α → Parser γ} {ts : List Token} (hw : wanted t = some b)
    (hhead : ts.head? = some t) :
    (optionally wanted p >>= k) ts = (p t b >>= fun a => k (some a)) ts := by
  rw [bind_apply, optionally, bind_apply, bind_apply]
  simp only [peek, hhead, hw, bind_apply]
  cases p t b ts <;> rfl

end Primitives

/-- An empty bound is large enough only when there is nothing to read. -/
theorem nothing_left {pre rest : List Token}
    (h : (pre ++ rest).length ≤ ([] : List Token).length) : pre = [] ∧ rest = [] :=
  List.append_eq_nil_iff.mp (List.length_eq_zero_iff.mp (Nat.le_zero.mp h))

/-- `iterate step` goes on from `a` over `pre` when `next` follows, with any bound that is large
enough. -/
def ReadsFrom (step : α → Parser (Option α)) (a : α) (pre : List Token) (next : Option Token)
    (out : Except Expectation α) : Prop :=
  ∀ rest, rest.head? = next → ∀ bound : List Token, (pre ++ rest).length ≤ bound.length →
    iterate step bound a (pre ++ rest) = ended out rest

namespace ReadsFrom

variable {step : α → Parser (Option α)} {a b : α} {pre pre' : List Token} {next : Option Token}
  {out : Except Expectation α}

theorem reads (h : ReadsFrom step a pre next out) : Reads (repeated step a) pre next out :=
  fun rest hrest => h rest hrest (pre ++ rest) (Nat.le_refl _)

theorem last (h : Reads (step a) pre next (.ok none)) : ReadsFrom step a pre next (.ok a) := by
  intro rest hrest bound hbound
  cases bound with
  | nil =>
    obtain ⟨rfl, rfl⟩ := nothing_left hbound
    rfl
  | cons t bound => rw [iterate, bind_apply, h rest hrest]; rfl

theorem cons (taken : pre ≠ []) (h : Reads (step a) pre (pre'.head?.or next) (.ok (some b)))
    (ht : ReadsFrom step b pre' next out) : ReadsFrom step a (pre ++ pre') next out := by
  intro rest hrest bound hbound
  have hpos := List.length_pos_iff.mpr taken
  cases bound with
  | nil => simp only [List.length_append, List.length_nil] at hbound; omega
  | cons t bound =>
    have hlen : (pre' ++ rest).length ≤ bound.length := by
      simp only [List.length_append, List.length_cons] at hbound ⊢
      omega
    rw [List.append_assoc, iterate, bind_apply, h _ (head?_append_eq pre' rest hrest)]
    exact ht rest hrest bound hlen

theorem error {e : Expectation} (declines : Reads (step a) [] none (.ok none))
    (h : Reads (step a) pre next (.error e)) : ReadsFrom step a pre next (.error e) := by
  intro rest hrest bound hbound
  cases bound with
  | nil =>
    obtain ⟨rfl, rfl⟩ := nothing_left hbound
    have hbad := (declines [] rfl).symm.trans (h [] hrest)
    cases hbad
  | cons t bound => rw [iterate, bind_apply, h rest hrest]; rfl

end ReadsFrom

/-- A repetition that does not start. -/
theorem reads_repeated_none {step : α → Parser (Option α)} {a : α} {next : Option Token}
    (h : Reads (step a) [] next (.ok none)) : Reads (repeated step a) [] next (.ok a) :=
  (ReadsFrom.last h).reads

/-- On `ts`, `p` and `q` take the same part of the tokens and end in the same way, by that part and
the next token alone; or `p` finds the list, of at least `n` tokens, too deep. -/
def AlikeAt (n : Nat) (p q : Parser α) (ts : List Token) : Prop :=
  (n ≤ ts.length ∧ p ts = .error .tooDeep) ∨
    ∃ pre rest out, ts = pre ++ rest ∧ Reads p pre rest.head? out ∧ Reads q pre rest.head? out

/-- `p` and `q` read alike on every list. -/
def Alike (n : Nat) (p q : Parser α) : Prop :=
  ∀ ts, AlikeAt n p q ts

theorem Alike.self {n : Nat} {p q : Parser α} (h : Alike n p q) : Alike n p p := by
  intro ts
  rcases h ts with hdeep | ⟨pre, rest, out, hts, hp, _⟩
  · exact Or.inl hdeep
  · exact Or.inr ⟨pre, rest, out, hts, hp, hp⟩

namespace AlikeAt

variable {n m : Nat} {p q : Parser α} {k k' : α → Parser β} {ts : List Token}

theorem of_reads {pre rest : List Token} {out : Except Expectation α}
    (hp : Reads p pre rest.head? out) (hq : Reads q pre rest.head? out) :
    AlikeAt n p q (pre ++ rest) :=
  Or.inr ⟨pre, rest, out, rfl, hp, hq⟩

/-- A run that takes nothing. -/
theorem here {out : Except Expectation α} (hp : Reads p [] ts.head? out)
    (hq : Reads q [] ts.head? out) : AlikeAt n p q ts :=
  Or.inr ⟨[], ts, out, rfl, hp, hq⟩

/-- A run that takes a token. -/
theorem past {t : Token} {pre rest : List Token} {out : Except Expectation α}
    (hp : Reads p (t :: pre) rest.head? out) (hq : Reads q (t :: pre) rest.head? out) :
    AlikeAt n p q (t :: (pre ++ rest)) :=
  of_reads hp hq

theorem of_head {p' q' : Parser α} (hp : ∀ ts', ts'.head? = ts.head? → p ts' = p' ts')
    (hq : ∀ ts', ts'.head? = ts.head? → q ts' = q' ts') (h : AlikeAt n p' q' ts) :
    AlikeAt n p q ts := by
  rcases h with ⟨hn, hdeep⟩ | ⟨pre, rest, out, rfl, hread, hread'⟩
  · exact Or.inl ⟨hn, by rw [hp ts rfl, hdeep]⟩
  · rw [head?_append_eq pre rest rfl] at hp hq
    exact of_reads (hread.of_head hp) (hread'.of_head hq)

/-- Where the list is short the two answers are the same. -/
theorem eq_of_short (h : AlikeAt n p q ts) (short : ts.length < n) : p ts = q ts := by
  rcases h with ⟨hn, _⟩ | ⟨pre, rest, out, rfl, hp, hq⟩
  · omega
  · rw [hp rest rfl, hq rest rfl]

theorem eq_of_ended (h : AlikeAt n p q ts) {out : Except Expectation α} {rest : List Token}
    (hend : p ts = ended out rest) : q ts = ended out rest := by
  rcases h with ⟨_, hdeep⟩ | ⟨pre, rest', out', rfl, hp, hq⟩
  · rw [hdeep] at hend
    cases out <;> cases hend
  · rw [← hend, hp rest' rfl, hq rest' rfl]

theorem reads_of_ended (h : AlikeAt n p q ts) {out : Except Expectation α} {rest : List Token}
    (hend : p ts = ended out rest) : ∃ pre, ts = pre ++ rest ∧ Reads p pre rest.head? out := by
  rcases h with ⟨_, hdeep⟩ | ⟨pre, rest', out', rfl, hp, _⟩
  · rw [hdeep] at hend
    cases out <;> cases hend
  · obtain ⟨rfl, rfl⟩ := ended_inj ((hp rest' rfl).symm.trans hend)
    exact ⟨pre, rfl, hp⟩

theorem mono (le : m ≤ n) (h : AlikeAt n p q ts) : AlikeAt m p q ts := by
  rcases h with ⟨hn, hdeep⟩ | h
  · exact Or.inl ⟨Nat.le_trans le hn, hdeep⟩
  · exact Or.inr h

theorem pure (a : α) : AlikeAt n (Pure.pure a) (Pure.pure a) ts :=
  here (.pure a) (.pure a)

/-- The rest of a run is shorter, so a bound for the list is a bound for the rest. -/
theorem bind (hp : AlikeAt n p q ts)
    (hk : ∀ a rest, p ts = .ok (a, rest) → AlikeAt n (k a) (k' a) rest) :
    AlikeAt n (p >>= k) (q >>= k') ts := by
  rcases hp with ⟨hn, hdeep⟩ | ⟨pre, rest, out, rfl, hread, hread'⟩
  · refine Or.inl ⟨hn, ?_⟩
    rw [bind_apply, hdeep]
  · cases out with
    | error e => exact of_reads hread.bind_error hread'.bind_error
    | ok a =>
      rcases hk a rest (hread rest rfl) with ⟨hn, hdeep⟩ | ⟨pre', rest', out', rfl, hnext, hnext'⟩
      · refine Or.inl ⟨?_, ?_⟩
        · rw [List.length_append]
          omega
        · rw [bind_apply, hread rest rfl]
          exact hdeep
      · rw [head?_append_eq pre' rest' rfl] at hread hread'
        rw [← List.append_assoc]
        exact of_reads (hread.bind hnext) (hread'.bind hnext')

end AlikeAt

section Combinators

variable {n : Nat} {ts : List Token}

theorem alike_fail (e : Expectation) : Alike n (fail e : Parser α) (fail e) :=
  fun _ => .here (reads_fail e) (reads_fail e)

theorem alike_peek : Alike n peek peek :=
  fun _ => .here reads_peek reads_peek

theorem alike_currentLine : Alike n currentLine currentLine :=
  fun _ => .here reads_currentLine reads_currentLine

theorem alike_check (text : String) : Alike n (check text) (check text) :=
  fun _ => .here (reads_check text) (reads_check text)

theorem alike_skip : Alike n skip skip := by
  intro ts
  cases ts with
  | nil =>
    have h : Reads skip [] none (.ok ()) := by
      intro rest hrest
      rw [List.head?_eq_none_iff.mp hrest]
      rfl
    exact .here h h
  | cons t ts => exact .past (reads_skip t) (reads_skip t)

theorem alike_accept (text : String) : Alike n (accept text) (accept text) := by
  intro ts
  refine (alike_check text ts).bind fun b rest _ => ?_
  split
  · exact (alike_skip rest).bind fun _ _ _ => .pure true
  · exact .pure false

theorem alike_expect (text : String) : Alike n (expect text) (expect text) := by
  intro ts
  refine (alike_check text ts).bind fun b rest _ => ?_
  split
  · exact alike_skip rest
  · exact alike_fail _ rest

theorem alike_name (role : NameRole) : Alike n (name role) (name role) := by
  intro ts
  refine (alike_peek ts).bind fun next rest _ => ?_
  cases next with
  | none => exact alike_fail _ rest
  | some t =>
    dsimp only
    split
    · exact (alike_skip rest).bind fun _ _ _ => .pure t.text
    · exact alike_fail _ rest

theorem alikeAt_optionally {wanted : Token → Option β} {p q : Token → β → Parser α}
    (h : ∀ t tail b, ts = t :: tail → wanted t = some b → AlikeAt n (p t b) (q t b) ts) :
    AlikeAt n (optionally wanted p) (optionally wanted q) ts := by
  refine (alike_peek ts).bind fun next rest hpeek => ?_
  cases hpeek
  cases ts with
  | nil => exact .pure none
  | cons t tail =>
    dsimp only [List.head?_cons]
    cases hw : wanted t with
    | none => exact .pure none
    | some b => exact (h t tail b rfl hw).bind fun a _ _ => .pure (some a)

theorem alikeAt_whenNext {test : Token → Bool} {p q : Token → Parser α}
    (h : ∀ t tail, ts = t :: tail → test t = true → AlikeAt n (p t) (q t) ts) :
    AlikeAt n (whenNext test p) (whenNext test q) ts := by
  refine alikeAt_optionally fun t tail b hts hw => h t tail hts ?_
  simpa using (Option.guard_eq_some_iff.mp hw).2

/-- What comes after a token sees a shorter list. -/
theorem alikeAt_skip {p q : Parser α} {t : Token} (h : AlikeAt n p q ts) :
    AlikeAt (n + 1) (do skip; p) (do skip; q) (t :: ts) := by
  rcases h with ⟨hn, hdeep⟩ | ⟨pre, rest, out, rfl, hp, hq⟩
  · exact Or.inl ⟨Nat.succ_le_succ hn, hdeep⟩
  · exact .past ((reads_skip t).bind hp) ((reads_skip t).bind hq)

theorem alikeAt_pastFirst {m : Nat} {r r' : Option (Parser α)} {p q : Parser α} {t : Token}
    (hr : Option.Rel (Alike m) r r') (bound : n ≤ m + 1) (h : AlikeAt n p q (t :: ts)) :
    AlikeAt n (pastFirst r p) (pastFirst r' q) (t :: ts) := by
  cases hr with
  | some hrest => exact (alikeAt_skip (hrest ts)).mono bound
  | none => exact h

theorem alikeAt_after {text : String} {p q : Parser α} (h : Alike n p q) :
    AlikeAt (n + 1) (after text p) (after text q) ts := by
  refine alikeAt_whenNext fun t tail hts _ => ?_
  rw [hts]
  exact alikeAt_skip (h tail)

/-- An item that takes a token whenever it does not decline. -/
def Advances (item : Parser (Option α)) : Prop :=
  ∀ ts a rest, item ts = .ok (some a, rest) → rest.length < ts.length

theorem bind_ok {p : Parser α} {k : α → Parser β} {b : β} {rest : List Token}
    (h : (p >>= k) ts = .ok (b, rest)) :
    ∃ a mid, p ts = .ok (a, mid) ∧ k a mid = .ok (b, rest) := by
  rw [bind_apply] at h
  cases hp : p ts with
  | error e => rw [hp] at h; cases h
  | ok r =>
    rw [hp] at h
    exact ⟨r.1, r.2, rfl, h⟩

theorem advances_oneMore {item : Parser (Option α)} (h : Advances item) (as : List α) :
    Advances (oneMore item as) := by
  intro ts bs rest hok
  obtain ⟨a, mid, hitem, hpure⟩ := bind_ok hok
  cases a with
  | none => cases hpure
  | some a =>
    cases hpure
    exact h ts a rest hitem

theorem alike_repeated {step step' : α → Parser (Option α)} (advances : ∀ a, Advances (step a))
    (declines : ∀ a, Reads (step a) [] none (.ok none))
    (declines' : ∀ a, Reads (step' a) [] none (.ok none)) (h : ∀ a, Alike n (step a) (step' a))
    (a : α) : Alike n (repeated step a) (repeated step' a) := by
  have main (bound ts : List Token) (a : α) (hbound : ts.length ≤ bound.length) :
      (n ≤ ts.length ∧ iterate step bound a ts = .error .tooDeep) ∨
        ∃ pre rest out, ts = pre ++ rest ∧ ReadsFrom step a pre rest.head? out ∧
          ReadsFrom step' a pre rest.head? out := by
    induction bound generalizing ts a with
    | nil =>
      rw [List.length_eq_zero_iff.mp (Nat.le_zero.mp hbound)]
      exact Or.inr ⟨[], [], .ok a, rfl, .last (declines a), .last (declines' a)⟩
    | cons t bound ih =>
      rcases h a ts with ⟨hn, hdeep⟩ | ⟨pre, rest, out, rfl, hp, hq⟩
      · refine Or.inl ⟨hn, ?_⟩
        rw [iterate, bind_apply, hdeep]
      · rcases out with e | _ | b
        · exact Or.inr ⟨pre, rest, _, rfl, .error (declines a) hp, .error (declines' a) hq⟩
        · exact Or.inr ⟨pre, rest, _, rfl, .last hp, .last hq⟩
        · have hstep := hp rest rfl
          have hlt := advances a _ b rest hstep
          have taken : pre ≠ [] := by rintro rfl; simp at hlt
          have hlen : rest.length ≤ bound.length := by
            simp only [List.length_cons] at hbound
            omega
          rcases ih rest b hlen with ⟨hn, hdeep⟩ | ⟨pre', rest', out', rfl, hp', hq'⟩
          · refine Or.inl ⟨?_, ?_⟩
            · omega
            · rw [iterate, bind_apply, hstep]
              exact hdeep
          · rw [head?_append_eq pre' rest' rfl] at hp hq
            exact Or.inr ⟨pre ++ pre', rest', _, by rw [List.append_assoc],
              .cons taken hp hp', .cons taken hq hq'⟩
  intro ts
  rcases main ts ts a (Nat.le_refl _) with hdeep | ⟨pre, rest, out, hts, hp, hq⟩
  · exact Or.inl hdeep
  · exact Or.inr ⟨pre, rest, out, hts, hp.reads, hq.reads⟩

theorem alike_many {item item' : Parser (Option α)} (advances : Advances item)
    (declines : Reads item [] none (.ok none)) (declines' : Reads item' [] none (.ok none))
    (h : Alike n item item') : Alike n (many item) (many item') := by
  refine alike_repeated (fun as => advances_oneMore advances as) (fun _ => declines.bind_pure)
    (fun _ => declines'.bind_pure) (fun as ts => ?_) []
  exact (h ts).bind fun _ _ _ => .pure _

theorem reads_optionally_end {wanted : Token → Option β} {p : Token → β → Parser α} :
    Reads (optionally wanted p) [] none (.ok none) :=
  reads_optionally_none rfl

/-- A parser that takes a token whenever it succeeds. -/
def Consumes (p : Parser α) : Prop :=
  ∀ ts a rest, p ts = .ok (a, rest) → rest.length < ts.length

theorem AlikeAt.ended_length_le {p q : Parser α} (h : AlikeAt n p q ts)
    {out : Except Expectation α} {rest : List Token} (hend : p ts = ended out rest) :
    rest.length ≤ ts.length := by
  rcases h with ⟨_, hdeep⟩ | ⟨pre, rest', out', rfl, hp, _⟩
  · rw [hdeep] at hend
    cases out <;> cases hend
  · rw [hp rest' rfl] at hend
    rw [← (ended_inj hend).2, List.length_append]
    omega

theorem AlikeAt.length_le {p q : Parser α} (h : AlikeAt n p q ts) {a : α} {rest : List Token}
    (hok : p ts = .ok (a, rest)) : rest.length ≤ ts.length :=
  h.ended_length_le (show p ts = ended (.ok a) rest from hok)

theorem Consumes.bind {p : Parser α} {k : α → Parser β} (hp : Consumes p)
    (hk : ∀ a, Alike n (k a) (k a)) : Consumes (p >>= k) := by
  intro ts b rest h
  obtain ⟨a, mid, hmid, hrest⟩ := bind_ok h
  have hlt := hp ts a mid hmid
  have hle := (hk a mid).length_le hrest
  omega

theorem Consumes.after_bind {p p' : Parser α} {k : α → Parser β} (hp : Alike n p p')
    (hk : ∀ a, Consumes (k a)) : Consumes (p >>= k) := by
  intro ts b rest h
  obtain ⟨a, mid, hmid, hrest⟩ := bind_ok h
  have hle := (hp ts).length_le hmid
  have hlt := hk a mid b rest hrest
  omega

theorem consumes_fail (e : Expectation) : Consumes (fail e : Parser α) := by
  intro ts a rest h
  cases h

theorem consumes_name (role : NameRole) : Consumes (name role) := by
  intro ts a rest hok
  cases ts with
  | nil => cases hok
  | cons t tail =>
    by_cases ht : t.kind = .identifier
    · cases (reads_name role ht tail rfl).symm.trans hok
      exact Nat.lt_succ_self _
    · have hnot : ∀ u, (t :: tail).head? = some u → u.kind ≠ .identifier := by
        rintro u ⟨⟩
        exact ht
      cases (reads_name_not role hnot (t :: tail) rfl).symm.trans hok

theorem consumes_expect (text : String) : Consumes (expect text) := by
  intro ts a rest hok
  cases ts with
  | nil => cases hok
  | cons t tail =>
    cases ht : t.isText text with
    | true =>
      cases (reads_expect ht tail rfl).symm.trans hok
      exact Nat.lt_succ_self _
    | false =>
      have hnot : ∀ u, (t :: tail).head? = some u → u.isText text = false := by
        rintro u ⟨⟩
        exact ht
      cases (reads_expect_not hnot (t :: tail) rfl).symm.trans hok

theorem advances_optionally {wanted : Token → Option β} {p : Token → β → Parser α}
    (h : ∀ t b tail a rest, wanted t = some b → p t b (t :: tail) = .ok (a, rest) →
      rest.length ≤ tail.length) : Advances (optionally wanted p) := by
  intro ts a rest hok
  obtain ⟨next, mid, hpeek, hrest⟩ := bind_ok hok
  cases hpeek
  cases ts with
  | nil => cases hrest
  | cons t tail =>
    dsimp only [List.head?_cons] at hrest
    cases hw : wanted t with
    | none => rw [hw] at hrest; cases hrest
    | some b =>
      rw [hw] at hrest
      obtain ⟨a', mid', hmid, hpure⟩ := bind_ok hrest
      cases hpure
      have hle := h t b tail a rest hw hmid
      simp only [List.length_cons]
      omega

theorem skip_bind_ok {p : Parser α} {t : Token} {a : α} {rest : List Token}
    (h : (do skip; p : Parser α) (t :: ts) = .ok (a, rest)) : p ts = .ok (a, rest) := h

theorem advances_after {text : String} {p q : Parser α} (h : Alike n p q) :
    Advances (after text p) :=
  advances_optionally fun _ _ tail _ _ _ hok => (h tail).length_le (skip_bind_ok hok)

theorem advances_whenNext {test : Token → Bool} {p : Token → Parser α}
    (h : ∀ t, test t = true → Consumes (p t)) : Advances (whenNext test p) := by
  refine advances_optionally fun t b tail a rest hw hok => ?_
  have hlt := h t (by simpa using (Option.guard_eq_some_iff.mp hw).2) _ a rest hok
  simp only [List.length_cons] at hlt
  omega

theorem pastFirst_length_le {r r' : Option (Parser α)} {p : Parser α} {t : Token} {a : α}
    {rest : List Token} (hr : Option.Rel (Alike n) r r') (hp : Consumes p)
    (hok : pastFirst r p (t :: ts) = .ok (a, rest)) : rest.length ≤ ts.length := by
  cases hr with
  | some hrest => exact (hrest ts).length_le (skip_bind_ok hok)
  | none => exact Nat.lt_succ_iff.mp (hp _ a rest hok)

theorem alike_commaSeparated {item item' : Parser α} (h : Alike n item item') :
    Alike n (commaSeparated item) (commaSeparated item') := by
  intro ts
  refine (h ts).bind fun first rest _ => ?_
  have more : Alike n (many (after "," item)) (many (after "," item')) :=
    alike_many (advances_after h) reads_optionally_end reads_optionally_end
      fun _ => (alikeAt_after h).mono (Nat.le_succ n)
  exact (more rest).bind fun items _ _ => .pure (first :: items)

theorem alike_listedItems {item item' : Parser α} (h : Alike n item item') :
    Alike n (listedItems item) (listedItems item') := by
  intro ts
  refine (alike_check ")" ts).bind fun closed rest _ => ?_
  split
  · exact .pure []
  · exact alike_commaSeparated h rest

theorem alike_parenthesized {item item' : Parser α} (h : Alike n item item') :
    Alike n (parenthesized item) (parenthesized item') := by
  intro ts
  refine (alike_expect "(" ts).bind fun _ rest _ => ?_
  refine (alike_listedItems h rest).bind fun items rest _ => ?_
  exact (alike_expect ")" rest).bind fun _ _ _ => .pure items

theorem reads_parenthesized_nil {item : Parser α} {l r : Token} {next : Option Token}
    (hl : l.isText "(" = true) (hr : r.isText ")" = true) :
    Reads (parenthesized item) [l, r] next (.ok []) := by
  have hitems : Reads (listedItems item) [] (some r) (.ok []) := by
    refine (reads_check ")").bind_nil ?_
    simp only [List.head?_nil, Option.none_or, Option.map_some, Option.getD_some, hr, if_true]
    exact .pure []
  exact (reads_expect hl).bind (hitems.bind_nil ((reads_expect hr).bind_last (.pure [])))

theorem alike_unlessClosed {item item' : Parser α} (consumes : Consumes item)
    (h : Alike n item item') : Alike n (many (unlessClosed item)) (many (unlessClosed item')) :=
  alike_many (advances_whenNext fun _ _ => consumes) reads_optionally_end reads_optionally_end
    fun ts => alikeAt_whenNext fun _ _ _ _ => h ts

theorem alike_inBraces {item item' : Parser α} (consumes : Consumes item)
    (h : Alike n item item') : Alike n (inBraces item) (inBraces item') := by
  intro ts
  refine (alike_expect _ ts).bind fun _ rest _ => ?_
  refine (alike_unlessClosed consumes h rest).bind fun items rest _ => ?_
  exact (alike_expect _ rest).bind fun _ _ _ => .pure items

theorem alike_skipSeparators : Alike n skipSeparators skipSeparators := by
  have nothing : Alike n (pure () : Parser Unit) (pure ()) := fun _ => .pure ()
  have many : Alike n (many (after ";" (pure ()))) (many (after ";" (pure ()))) :=
    alike_many (advances_after nothing) reads_optionally_end reads_optionally_end
      fun _ => (alikeAt_after nothing).mono (Nat.le_succ n)
  intro ts
  exact (many ts).bind fun _ _ _ => .pure ()

theorem alike_endSimple : Alike n endSimple endSimple :=
  fun ts => (alike_accept ";" ts).bind fun _ _ _ => .pure ()

end Combinators

end ClassScript.Parser
