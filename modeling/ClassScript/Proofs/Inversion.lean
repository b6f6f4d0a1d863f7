import ClassScript.Proofs.Lookahead
import ClassScript.Proofs.Rendering

/-!
# Reading renderings back

`Inverts p l F R` says that `p` reads every list of the language `l`, before anything in `F`, as
something in `R`. Where one part follows another, what the second part starts with has to be
something that the first may stand before: `Leads l F G` says so of a language.
-/

namespace ClassScript.Parser

open Computability

variable {α β γ : Type}

/-- `p` reads every list of `l`, before any `F`, as an `R`. -/
def Inverts (p : Parser α) (l : Language Token) (F : Follow) (R : α → Prop) : Prop :=
  ∀ ts ∈ l, ∃ a, R a ∧ ∀ next, F next → Reads p ts next (.ok a)

/-- Before any `F`, a list of `l` starts with a `G`. -/
def Leads (l : Language Token) (F G : Follow) : Prop :=
  ∀ ts ∈ l, ∀ next, F next → G (ts.head?.or next)

/-- The next token, if there is one, passes the test. -/
def allowing (test : Token → Bool) : Follow :=
  fun next => next.all test = true

section Languages

variable {l m : Language Token} {F G H : Follow}

theorem leads_one (h : ∀ next, F next → G next) : Leads 1 F G := by
  intro ts hts next hnext
  rw [Language.mem_one] at hts
  subst hts
  exact h next hnext

theorem Leads.mul (hl : Leads l G H) (hm : Leads m F G) : Leads (l * m) F H := by
  intro ts hts next hnext
  obtain ⟨u, hu, v, hv, rfl⟩ := Language.mem_mul.mp hts
  rw [List.head?_append, Option.or_assoc]
  exact hl u hu _ (hm v hv next hnext)

theorem leads_word {kind : TokenKind} {text : String}
    (h : ∀ line column, G (some ⟨kind, text, line, column⟩)) :
    Leads (Rendering.word kind text) F G := by
  rintro ts ⟨t, rfl, rfl, rfl⟩ next _
  exact h t.line t.column

/-- What starts with a word starts with it whatever follows. -/
theorem leads_word_mul {kind : TokenKind} {text : String}
    (h : ∀ line column, G (some ⟨kind, text, line, column⟩)) :
    Leads (Rendering.word kind text * l) F G :=
  (leads_word (F := anything) h).mul fun _ _ _ _ => trivial

theorem Leads.mono {F' G' : Follow} (h : Leads l F G) (hF : ∀ next, F' next → F next)
    (hG : ∀ next, G next → G' next) : Leads l F' G' :=
  fun ts hts next hnext => hG _ (h ts hts next (hF next hnext))

end Languages

section Composition

variable {p : Parser α} {k : α → Parser β} {l m : Language Token} {F G : Follow} {R : α → Prop}
  {S : β → Prop}

theorem inverts_pure {a : α} (h : R a) : Inverts (pure a) 1 F R := by
  intro ts hts
  rw [Language.mem_one] at hts
  subst hts
  exact ⟨a, h, fun _ _ => .pure a⟩

theorem Inverts.bind (hp : Inverts p l G R) (hk : ∀ a, R a → Inverts (k a) m F S)
    (hm : Leads m F G) : Inverts (p >>= k) (l * m) F S := by
  intro ts hts
  obtain ⟨u, hu, v, hv, rfl⟩ := Language.mem_mul.mp hts
  obtain ⟨a, ha, hread⟩ := hp u hu
  obtain ⟨b, hb, hread'⟩ := hk a ha v hv
  exact ⟨b, hb, fun next hnext => (hread _ (hm v hv next hnext)).bind (hread' next hnext)⟩

theorem Inverts.bind_pure {f : α → β} (hp : Inverts p l F R) (hf : ∀ a, R a → S (f a)) :
    Inverts (p >>= fun a => pure (f a)) l F S := by
  intro ts hts
  obtain ⟨a, ha, hread⟩ := hp ts hts
  exact ⟨f a, hf a ha, fun next hnext => (hread next hnext).bind_pure⟩

theorem Inverts.mono {F' : Follow} {R' : α → Prop} (hp : Inverts p l F R)
    (hF : ∀ next, F' next → F next) (hR : ∀ a, R a → R' a) : Inverts p l F' R' := by
  intro ts hts
  obtain ⟨a, ha, hread⟩ := hp ts hts
  exact ⟨a, hR a ha, fun next hnext => hread next (hF next hnext)⟩

/-- What comes before anything comes before `F`. -/
theorem Inverts.before (hp : Inverts p l anything R) : Inverts p l F R :=
  hp.mono (fun _ _ => trivial) fun _ => id

/-- Where nothing is asked of what comes next. -/
theorem Inverts.andThen (hp : Inverts p l anything R) (hk : ∀ a, R a → Inverts (k a) m F S) :
    Inverts (p >>= k) (l * m) F S :=
  hp.bind hk fun _ _ _ _ => trivial

end Composition

section Primitives

variable {kind : TokenKind} {text x : String} {l m : Language Token} {F G : Follow}

theorem isText_self {t : Token} (hkind : t.kind ≠ .string) : t.isText t.text = true := by
  simp [Token.isText, hkind]

theorem inverts_expect (hkind : kind ≠ .string) :
    Inverts (expect text) (Rendering.word kind text) anything fun _ => True := by
  rintro ts ⟨t, rfl, rfl, rfl⟩
  exact ⟨(), trivial, fun _ _ => reads_expect (isText_self hkind)⟩

theorem inverts_name (role : NameRole) :
    Inverts (name role) (Rendering.identifier x) anything (· = x) := by
  rintro ts ⟨t, rfl, hkind, rfl⟩
  exact ⟨t.text, rfl, fun _ _ => reads_name role hkind⟩

variable {p : Parser α} {k : Option α → Parser β} {S : β → Prop}

/-- An option that is taken. -/
theorem Inverts.after_some (hkind : kind ≠ .string)
    (h : Inverts (p >>= fun a => k (some a)) l F S) :
    Inverts (after text p >>= k) (Rendering.word kind text * l) F S := by
  intro ts hts
  obtain ⟨u, ⟨t, rfl, rfl, rfl⟩, v, hv, rfl⟩ := Language.mem_mul.mp hts
  obtain ⟨b, hb, hread⟩ := h v hv
  refine ⟨b, hb, fun next hnext => ?_⟩
  have hskip : Reads (do skip; p >>= fun a => k (some a)) ([t] ++ v) next (.ok b) :=
    (reads_skip t).bind (hread next hnext)
  refine hskip.of_head fun ts hhead => ?_
  rw [after, whenNext, optionally_bind_some (b := t) (by simp [isText_self hkind]) hhead]
  rfl

theorem Inverts.optionally_none {wanted : Token → Option γ} {q : Token → γ → Parser α}
    (h : Inverts (k none) l F S) (hl : Leads l F fun next => next.bind wanted = none) :
    Inverts (optionally wanted q >>= k) l F S := by
  intro ts hts
  obtain ⟨b, hb, hread⟩ := h ts hts
  exact ⟨b, hb, fun next hnext =>
    (reads_optionally_none (hl ts hts next hnext)).bind_nil (hread next hnext)⟩

theorem allowing_guard {test : Token → Bool} (next : Option Token)
    (h : allowing (fun t => !test t) next) : next.bind (Option.guard test) = none := by
  cases next with
  | none => rfl
  | some t =>
    have ht : test t = false := by simpa [allowing] using h
    simp [ht]

/-- An option that is not taken. -/
theorem Inverts.whenNext_none {test : Token → Bool} {q : Token → Parser α}
    (h : Inverts (k none) l F S) (hl : Leads l F (allowing fun t => !test t)) :
    Inverts (whenNext test q >>= k) l F S :=
  .optionally_none h (hl.mono (fun _ => id) allowing_guard)

/-- An option that is taken with the token that decides it. -/
theorem Inverts.whenNext_some {test : Token → Bool} (h : Inverts (p >>= fun a => k (some a)) l F S)
    (hl : ∀ ts ∈ l, ∃ t, ts.head? = some t ∧ test t = true) :
    Inverts (whenNext test (fun _ => p) >>= k) l F S := by
  intro ts hts
  obtain ⟨b, hb, hread⟩ := h ts hts
  obtain ⟨t, hhead, ht⟩ := hl ts hts
  refine ⟨b, hb, fun next hnext => (hread next hnext).of_head fun ts' hhead' => ?_⟩
  rw [hhead, Option.some_or] at hhead'
  rw [whenNext, optionally_bind_some (b := t) (by simp [ht]) hhead']

end Primitives

section Repetition

/-- A list is read back when its items are. -/
theorem map_eq_iff_forall₂ {f : α → β} {as as' : List α} :
    as'.map f = as.map f ↔ List.Forall₂ (fun a a' => f a' = f a) as as' := by
  rw [eq_comm, ← List.forall₂_eq_eq_eq, List.forall₂_map_left_iff, List.forall₂_map_right_iff]
  simp only [eq_comm]

theorem eq_of_forall₂ {as as' : List α} (h : List.Forall₂ (fun a a' => a' = a) as as') :
    as' = as := by
  have hmap := map_eq_iff_forall₂ (f := id) |>.mpr h
  rwa [List.map_id, List.map_id] at hmap

variable {δ : Type} {item : Parser α} {l : δ → Language Token} {R : δ → α → Prop} {F : Follow}

/-- A list of `l` starts with a token of `P`. -/
def Starts (l : Language Token) (P : Token → Prop) : Prop :=
  ∀ ts ∈ l, ∃ t, ts.head? = some t ∧ P t

theorem Starts.mul {l m : Language Token} {P : Token → Prop} (h : Starts l P) :
    Starts (l * m) P := by
  intro ts hts
  obtain ⟨u, hu, v, _, rfl⟩ := Language.mem_mul.mp hts
  obtain ⟨t, hhead, ht⟩ := h u hu
  exact ⟨t, by rw [List.head?_append, hhead, Option.some_or], ht⟩

theorem starts_word {kind : TokenKind} {text : String} {P : Token → Prop}
    (h : ∀ line column, P ⟨kind, text, line, column⟩) : Starts (Rendering.word kind text) P := by
  rintro ts ⟨t, rfl, rfl, rfl⟩
  exact ⟨t, rfl, h t.line t.column⟩

theorem starts_some {kind : TokenKind} {text : String} :
    Starts (Rendering.word kind text) fun _ => True :=
  starts_word fun _ _ => trivial

theorem leads_prod {ds : List δ} {G : Follow} (starts : ∀ d ∈ ds, Starts (l d) fun t => G (some t))
    (hF : ∀ next, F next → G next) : Leads (ds.map l).prod F G := by
  cases ds with
  | nil => exact leads_one hF
  | cons d ds =>
    intro ts hts next _
    rw [List.map_cons, List.prod_cons] at hts
    obtain ⟨u, hu, v, _, rfl⟩ := Language.mem_mul.mp hts
    obtain ⟨t, hhead, ht⟩ := starts d List.mem_cons_self u hu
    rw [List.head?_append, hhead]
    exact ht

/-- Items one after the other, each of which starts with a token that passes the test. -/
theorem inverts_many {test : Token → Bool} (ds : List δ) (h : ∀ d ∈ ds, Inverts item (l d) F (R d))
    (starts : ∀ d ∈ ds, Starts (l d) fun t => test t = true ∧ F (some t)) :
    Inverts (many (whenNext test fun _ => item)) (ds.map l).prod
      (fun next => F next ∧ allowing (fun t => !test t) next) (List.Forall₂ R ds) := by
  have main (acc : List α) : ∀ ts ∈ (ds.map l).prod, ∃ as, List.Forall₂ R ds as ∧
      ∀ next, F next ∧ allowing (fun t => !test t) next →
        ReadsFrom (oneMore (whenNext test fun _ => item)) acc ts next (.ok (acc ++ as)) := by
    induction ds generalizing acc with
    | nil =>
      intro ts hts
      rw [List.map_nil, List.prod_nil, Language.mem_one] at hts
      subst hts
      refine ⟨[], .nil, fun next hnext => ?_⟩
      rw [List.append_nil]
      exact .last (reads_optionally_none (allowing_guard next hnext.2)).bind_pure
    | cons d ds ih =>
      intro ts hts
      rw [List.map_cons, List.prod_cons] at hts
      obtain ⟨u, hu, v, hv, rfl⟩ := Language.mem_mul.mp hts
      obtain ⟨a, ha, hread⟩ := h d List.mem_cons_self u hu
      obtain ⟨t, hhead, ht, _⟩ := starts d List.mem_cons_self u hu
      obtain ⟨as, has, hreads⟩ := ih (fun d hd => h d (List.mem_cons_of_mem _ hd))
        (fun d hd => starts d (List.mem_cons_of_mem _ hd)) (acc ++ [a]) v hv
      refine ⟨a :: as, .cons ha has, fun next hnext => ?_⟩
      have hF : F (v.head?.or next) := by
        refine leads_prod (fun d hd ts hts => ?_) (fun _ => id) v hv next hnext.1
        obtain ⟨t, hhead, _, hF⟩ := starts d (List.mem_cons_of_mem _ hd) ts hts
        exact ⟨t, hhead, hF⟩
      have taken : u ≠ [] := by
        rintro rfl
        cases hhead
      have hitem := reads_whenNext (p := fun _ => item) (by rw [hhead, Option.some_or]) ht
        (hread _ hF)
      have hmore := hreads next hnext
      rw [List.append_assoc, List.singleton_append] at hmore
      exact .cons taken hitem.bind_pure hmore
  intro ts hts
  obtain ⟨as, has, hreads⟩ := main [] ts hts
  exact ⟨as, has, fun next hnext => (hreads next hnext).reads⟩

/-- The line of the first token, where there is one. -/
theorem Inverts.currentLine {k : Nat → Parser α} {m : Language Token} {P : Token → Prop}
    {S : α → Prop} (starts : Starts m P) (h : ∀ line, Inverts (k line) m F S) :
    Inverts (Parser.currentLine >>= k) m F S := by
  intro ts hts
  obtain ⟨t, hhead, _⟩ := starts ts hts
  obtain ⟨a, ha, hread⟩ := h t.line ts hts
  refine ⟨a, ha, fun next hnext => reads_currentLine.bind_nil ?_⟩
  rw [hhead]
  exact hread next hnext

theorem inverts_skip {kind : TokenKind} {text : String} {p : Parser α} {m : Language Token}
    {S : α → Prop} (h : Inverts p m F S) :
    Inverts (do skip; p) (Rendering.word kind text * m) F S := by
  intro ts hts
  obtain ⟨u, ⟨t, rfl, _, _⟩, v, hv, rfl⟩ := Language.mem_mul.mp hts
  obtain ⟨a, ha, hread⟩ := h v hv
  exact ⟨a, ha, fun next hnext => (reads_skip t).bind (hread next hnext)⟩

theorem inverts_commaSeparated {d : δ} {ds : List δ}
    (h : ∀ d' ∈ d :: ds, Inverts item (l d') F (R d'))
    (hcomma : ∀ line column, F (some ⟨.comma, ",", line, column⟩)) :
    Inverts (commaSeparated item) (Rendering.listed ((d :: ds).map l))
      (fun next => F next ∧ allowing (fun t => !t.isText ",") next) (List.Forall₂ R (d :: ds)) := by
  have more : Inverts (many (after "," item)) (ds.map fun d => Rendering.word .comma "," * l d).prod
      (fun next => F next ∧ allowing (fun t => !t.isText ",") next) (List.Forall₂ R ds) :=
    inverts_many ds (fun d' hd => inverts_skip (h d' (List.mem_cons_of_mem _ hd)))
      (fun _ _ => (starts_word fun line column => ⟨rfl, hcomma line column⟩).mul)
  rw [List.map_cons, Rendering.listed, List.map_map]
  refine (h d List.mem_cons_self).bind (fun a ha => ?_) ?_
  · exact more.bind_pure fun as has => .cons ha has
  · exact leads_prod (fun _ _ => (starts_word hcomma).mul) fun _ => And.left

theorem inverts_parenthesized {ds : List δ} (h : ∀ d ∈ ds, Inverts item (l d) F (R d))
    (hcomma : ∀ line column, F (some ⟨.comma, ",", line, column⟩))
    (hclose : ∀ line column, F (some ⟨.rparen, ")", line, column⟩))
    (starts : ∀ d ∈ ds, Starts (l d) fun t => t.isText ")" = false) :
    Inverts (parenthesized item) (Rendering.parenthesized (Rendering.listed (ds.map l))) anything
      (List.Forall₂ R ds) := by
  have closes : Leads (Rendering.word .rparen ")") anything
      fun next => (F next ∧ allowing (fun t => !t.isText ",") next) ∧
        (next.map (Token.isText · ")")).getD false = true :=
    leads_word fun line column => ⟨⟨hclose line column, rfl⟩, rfl⟩
  have items : Inverts (listedItems item) (Rendering.listed (ds.map l))
      (fun next => (F next ∧ allowing (fun t => !t.isText ",") next) ∧
        (next.map (Token.isText · ")")).getD false = true) (List.Forall₂ R ds) := by
    cases ds with
    | nil =>
      intro ts hts
      rw [List.map_nil, Rendering.listed, Language.mem_one] at hts
      subst hts
      refine ⟨[], .nil, fun next hnext => (reads_check ")").bind_nil ?_⟩
      simp only [List.head?_nil, Option.none_or, hnext.2, if_true]
      exact .pure []
    | cons d ds =>
      intro ts hts
      obtain ⟨as, has, hread⟩ := inverts_commaSeparated h hcomma ts hts
      refine ⟨as, has, fun next hnext => (reads_check ")").bind_nil ?_⟩
      rw [List.map_cons, Rendering.listed] at hts
      obtain ⟨u, hu, v, _, rfl⟩ := Language.mem_mul.mp hts
      obtain ⟨t, hhead, ht⟩ := starts d List.mem_cons_self u hu
      simp only [List.head?_append, hhead, Option.some_or, Option.map_some, Option.getD_some, ht]
      exact hread next hnext.1
  rw [Rendering.parenthesized]
  rw [mul_assoc]
  refine (inverts_expect (by decide)).andThen fun _ _ => ?_
  refine items.bind (fun as has => ?_) closes
  exact (inverts_expect (by decide)).bind_pure fun _ _ => has

theorem inverts_inBraces {ds : List δ} (h : ∀ d ∈ ds, Inverts item (l d) anything (R d))
    (starts : ∀ d ∈ ds, Starts (l d) fun t => t.isText "\x7d" = false) :
    Inverts (inBraces item) (Rendering.inBraces (ds.map l).prod) anything (List.Forall₂ R ds) := by
  rw [Rendering.inBraces, mul_assoc]
  refine (inverts_expect (by decide)).andThen fun _ _ => ?_
  refine (inverts_many ds h fun d hd ts hts => ?_).bind (fun as has => ?_)
    (leads_word fun _ _ => ⟨trivial, rfl⟩)
  · obtain ⟨t, hhead, ht⟩ := starts d hd ts hts
    exact ⟨t, hhead, by simp [ht], trivial⟩
  · exact (inverts_expect (by decide)).bind_pure fun _ _ => has

end Repetition

section Words

variable {l m : Language Token} {P : Token → Prop}

/-- Every token of a list of `l` is in `P`. -/
def Holds (l : Language Token) (P : Token → Prop) : Prop :=
  ∀ ts ∈ l, ∀ t ∈ ts, P t

theorem holds_one : Holds 1 P := by
  intro ts hts t ht
  rw [(Language.mem_one ts).mp hts] at ht
  cases ht

theorem Holds.mul (hl : Holds l P) (hm : Holds m P) : Holds (l * m) P := by
  intro ts hts t ht
  obtain ⟨u, hu, v, hv, rfl⟩ := Language.mem_mul.mp hts
  rcases List.mem_append.mp ht with ht | ht
  · exact hl u hu t ht
  · exact hm v hv t ht

theorem holds_word {kind : TokenKind} {text : String}
    (h : ∀ line column, P ⟨kind, text, line, column⟩) : Holds (Rendering.word kind text) P := by
  rintro ts ⟨t, rfl, rfl, rfl⟩ u hu
  rw [List.mem_singleton.mp hu]
  exact h t.line t.column

theorem holds_prod {ls : List (Language Token)} (h : ∀ l ∈ ls, Holds l P) : Holds ls.prod P := by
  induction ls with
  | nil => exact holds_one
  | cons l ls ih =>
    rw [List.prod_cons]
    exact (h l List.mem_cons_self).mul (ih fun l' hl => h l' (List.mem_cons_of_mem _ hl))

theorem holds_parenthesized (hopen : ∀ line column, P ⟨.lparen, "(", line, column⟩)
    (hclose : ∀ line column, P ⟨.rparen, ")", line, column⟩) (h : Holds l P) :
    Holds (Rendering.parenthesized l) P :=
  ((holds_word hopen).mul h).mul (holds_word hclose)

theorem holds_listed {ls : List (Language Token)}
    (hcomma : ∀ line column, P ⟨.comma, ",", line, column⟩) (h : ∀ l ∈ ls, Holds l P) :
    Holds (Rendering.listed ls) P := by
  cases ls with
  | nil => exact holds_one
  | cons l ls =>
    refine (h l List.mem_cons_self).mul (holds_prod fun m hm => ?_)
    obtain ⟨l', hl, rfl⟩ := List.mem_map.mp hm
    exact (holds_word hcomma).mul (h l' (List.mem_cons_of_mem _ hl))

end Words

end ClassScript.Parser
