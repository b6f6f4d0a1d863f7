import ClassScript.Proofs.StatementInversion

/-!
# What is read back is plain

A statement that is not plain is read as one of another form, wherever it stands. So a program that
is read back has plain statements only. The argument goes along the run: as long as the results are
the right ones the statements before were plain, and plain statements are read to their end.
-/

namespace ClassScript.Parser

open Rendering Computability

variable {α β γ : Type}

/-- Whenever `p` makes an `R` of a list of `l` before an `F`, the fact `Q` holds. -/
def Reveals (p : Parser α) (l : Language Token) (F : Follow) (R : α → Prop) (Q : Prop) : Prop :=
  ∀ ts ∈ l, ∀ rest, F rest.head? → ∀ a rest', p (ts ++ rest) = .ok (a, rest') → R a → Q

section Composition

variable {p : Parser α} {k : α → Parser β} {l m : Language Token} {F G : Follow} {R : α → Prop}
  {S : β → Prop} {Q Q' : Prop}

theorem Reveals.bind_pure {f : α → β} (hp : Reveals p l F R Q) (hf : ∀ a, S (f a) → R a) :
    Reveals (p >>= fun a => pure (f a)) l F S Q := by
  intro ts hts rest hrest b rest' hrun hS
  obtain ⟨a, mid, ha, hb⟩ := bind_ok hrun
  cases hb
  exact hp ts hts rest hrest a _ ha (hf a hS)

/-- After a part that is read back. -/
theorem Reveals.after_known (hp : Inverts p l G R) (hk : ∀ a, R a → Reveals (k a) m F S Q)
    (hm : Leads m F G) : Reveals (p >>= k) (l * m) F S Q := by
  intro ts hts rest hrest b rest' hrun hS
  obtain ⟨u, hu, v, hv, rfl⟩ := Language.mem_mul.mp hts
  obtain ⟨a, ha, hread⟩ := hp u hu
  have hnext := hm v hv _ hrest
  rw [List.append_assoc, bind_apply, hread _ hnext (v ++ rest) (head?_append_eq v rest rfl)] at hrun
  exact hk a ha v hv rest hrest b rest' hrun hS

theorem Reveals.andThen (hp : Inverts p l anything R) (hk : ∀ a, R a → Reveals (k a) m F S Q) :
    Reveals (p >>= k) (l * m) F S Q :=
  .after_known hp hk fun _ _ _ _ => trivial

/-- What the first part reveals is revealed by the whole, if the result shows that of the part. -/
theorem Reveals.first (hp : Reveals p l G R Q)
    (shown : ∀ a ts b rest, k a ts = .ok (b, rest) → S b → R a) (hm : Leads m F G) :
    Reveals (p >>= k) (l * m) F S Q := by
  intro ts hts rest hrest b rest' hrun hS
  obtain ⟨u, hu, v, hv, rfl⟩ := Language.mem_mul.mp hts
  rw [List.append_assoc] at hrun
  obtain ⟨a, mid, ha, hb⟩ := bind_ok hrun
  refine hp u hu (v ++ rest) ?_ a mid ha (shown a mid b rest' hb hS)
  rw [head?_append_eq v rest rfl]
  exact hm v hv _ hrest

/-- Both parts reveal something, the second because the first is then read back. -/
theorem Reveals.both (hp : Reveals p l G R Q) (back : Q → Inverts p l G R)
    (shown : ∀ a ts b rest, k a ts = .ok (b, rest) → S b → R a)
    (hk : ∀ a, R a → Reveals (k a) m F S Q') (hm : Leads m F G) :
    Reveals (p >>= k) (l * m) F S (Q ∧ Q') := by
  intro ts hts rest hrest b rest' hrun hS
  have hQ := Reveals.first hp shown hm ts hts rest hrest b rest' hrun hS
  exact ⟨hQ, Reveals.after_known (back hQ) hk hm ts hts rest hrest b rest' hrun hS⟩

theorem Reveals.mono {R' : α → Prop} (hp : Reveals p l F R Q) (hR : ∀ a, R' a → R a)
    (hQ : Q → Q') : Reveals p l F R' Q' :=
  fun ts hts rest hrest a rest' hrun ha => hQ (hp ts hts rest hrest a rest' hrun (hR a ha))

theorem Reveals.before (hp : Reveals p l anything R Q) : Reveals p l F R Q :=
  fun ts hts rest _ => hp ts hts rest trivial

theorem Reveals.currentLine {k : Nat → Parser β} (h : ∀ line, Reveals (k line) m F S Q) :
    Reveals (Parser.currentLine >>= k) m F S Q :=
  fun ts hts rest hrest b rest' hrun hS => h _ ts hts rest hrest b rest' hrun hS

theorem Reveals.after_some {kind : TokenKind} {text : String} {k : Option α → Parser β}
    (hkind : kind ≠ .string) (h : Reveals (p >>= fun a => k (some a)) l F S Q) :
    Reveals (after text p >>= k) (word kind text * l) F S Q := by
  intro ts hts rest hrest b rest' hrun hS
  obtain ⟨_, ⟨t, rfl, rfl, rfl⟩, v, hv, rfl⟩ := Language.mem_mul.mp hts
  rw [List.append_assoc, after, whenNext,
    optionally_bind_some (b := t) (by simp [isText_self hkind]) rfl] at hrun
  exact h v hv rest hrest b rest' hrun hS

theorem Reveals.after_none {text : String} {k : Option α → Parser β}
    (h : Reveals (k none) l F S Q) (hl : Leads l F (allowing fun t => !t.isText text)) :
    Reveals (after text p >>= k) l F S Q := by
  intro ts hts rest hrest b rest' hrun hS
  have hnext := allowing_guard _ (hl ts hts _ hrest)
  have hread := reads_optionally_none (p := fun _ _ => do skip; p) hnext (ts ++ rest)
    (head?_append_eq ts rest rfl)
  rw [List.nil_append] at hread
  rw [after, whenNext, bind_apply, hread] at hrun
  exact h ts hts rest hrest b rest' hrun hS

end Composition

section Repetition

variable {δ : Type} {item : Parser α} {l : δ → Language Token} {R : δ → α → Prop} {F : Follow}
  {Q : δ → Prop} {test : Token → Bool}

theorem oneMore_ok {item : Parser (Option α)} {as bs : List α} {ts rest : List Token}
    (h : oneMore item as ts = .ok (some bs, rest)) :
    ∃ a, item ts = .ok (some a, rest) ∧ bs = as ++ [a] := by
  obtain ⟨found, mid, hitem, hrest⟩ := bind_ok h
  cases found with
  | none => cases hrest
  | some a =>
    cases hrest
    exact ⟨a, hitem, rfl⟩

theorem prefix_of_iterate {item : Parser (Option α)} {bound : List Token} {acc as : List α}
    {ts rest : List Token} (h : iterate (oneMore item) bound acc ts = .ok (as, rest)) :
    acc <+: as := by
  induction bound generalizing acc ts with
  | nil =>
    cases h
    exact List.prefix_rfl
  | cons _ bound ih =>
    obtain ⟨found, mid, hstep, hrest⟩ := bind_ok h
    cases found with
    | none =>
      cases hrest
      exact List.prefix_rfl
    | some bs =>
      obtain ⟨a, _, rfl⟩ := oneMore_ok hstep
      exact (List.prefix_append acc [a]).trans (ih hrest)

theorem iterate_cons {item : Parser (Option α)} {bound : List Token} {acc as : List α} {a : α}
    {ts rest : List Token} (h : iterate (oneMore item) bound acc ts = .ok (acc ++ a :: as, rest)) :
    ∃ bound' mid, item ts = .ok (some a, mid) ∧
      iterate (oneMore item) bound' (acc ++ [a]) mid = .ok (acc ++ [a] ++ as, rest) := by
  have more {ts' : List Token} : (.ok (acc, ts') : Except ParseFailure _) ≠
      .ok (acc ++ a :: as, rest) := by simp
  cases bound with
  | nil => exact absurd h more
  | cons _ bound =>
    obtain ⟨found, mid, hstep, hrest⟩ := bind_ok h
    cases found with
    | none => exact absurd hrest more
    | some bs =>
      obtain ⟨a', hitem, rfl⟩ := oneMore_ok hstep
      have hprefix := (List.prefix_append_right_inj acc).mp (prefix_of_iterate hrest)
      obtain ⟨rfl, _⟩ := List.cons_prefix_cons.mp hprefix
      exact ⟨bound, mid, hitem, by rwa [List.append_assoc, List.singleton_append]⟩

theorem whenNext_ok {p : Token → Parser α} {ts rest : List Token} {a : α}
    (h : whenNext test p ts = .ok (some a, rest)) :
    ∃ t tail, ts = t :: tail ∧ p t ts = .ok (a, rest) := by
  cases ts with
  | nil => cases h
  | cons t tail =>
    obtain ⟨_, _, hpeek, h⟩ := bind_ok h
    cases hpeek
    refine ⟨t, tail, rfl, ?_⟩
    cases ht : Option.guard test t with
    | none =>
      simp only [List.head?_cons, ht] at h
      cases h
    | some b =>
      simp only [List.head?_cons, ht] at h
      obtain ⟨_, _, hitem, hrest⟩ := bind_ok h
      cases hrest
      exact hitem

/-- As long as the items are the right ones, the next one is read where it starts. -/
theorem reveals_many (ds : List δ) (h : ∀ d ∈ ds, Reveals item (l d) F (R d) (Q d))
    (back : ∀ d ∈ ds, Q d → Inverts item (l d) F (R d))
    (starts : ∀ d ∈ ds, Starts (l d) fun t => F (some t)) :
    Reveals (many (whenNext test fun _ => item)) (ds.map l).prod F (List.Forall₂ R ds)
      (∀ d ∈ ds, Q d) := by
  have main (bound : List Token) (acc : List α) : ∀ ts ∈ (ds.map l).prod, ∀ rest, F rest.head? →
      ∀ as rest', iterate (oneMore (whenNext test fun _ => item)) bound acc (ts ++ rest) =
        .ok (acc ++ as, rest') → List.Forall₂ R ds as → ∀ d ∈ ds, Q d := by
    induction ds generalizing bound acc with
    | nil => simp
    | cons d ds ih =>
      intro ts hts rest hrest as rest' hrun hR
      rw [List.map_cons, List.prod_cons] at hts
      obtain ⟨u, hu, v, hv, rfl⟩ := Language.mem_mul.mp hts
      obtain ⟨a, as, ha, has, rfl⟩ := List.forall₂_cons_left_iff.mp hR
      have tailStarts (d' : δ) (hd : d' ∈ ds) := starts d' (List.mem_cons_of_mem _ hd)
      have hnext : F (v ++ rest).head? := by
        rw [head?_append_eq v rest rfl]
        exact leads_prod tailStarts (fun _ => id) v hv _ hrest
      obtain ⟨bound', mid, hitem, hmore⟩ := iterate_cons hrun
      obtain ⟨_, _, _, hitem⟩ := whenNext_ok hitem
      rw [List.append_assoc] at hitem
      have hQ := h d List.mem_cons_self u hu (v ++ rest) hnext a mid hitem ha
      obtain ⟨a', _, hread⟩ := back d List.mem_cons_self hQ u hu
      rw [hread _ hnext (v ++ rest) rfl] at hitem
      cases hitem
      have hrest' := ih (fun d' hd => h d' (List.mem_cons_of_mem _ hd))
        (fun d' hd => back d' (List.mem_cons_of_mem _ hd)) tailStarts bound' (acc ++ [a]) v hv rest
        hrest as rest' hmore has
      exact List.forall_mem_cons.mpr ⟨hQ, hrest'⟩
  intro ts hts rest hrest as rest' hrun hR
  exact main (ts ++ rest) [] ts hts rest hrest as rest' hrun hR

end Repetition

section Bodies

/-- What is read back from the rendering of a statement is plain. -/
def Revealed (s : Stmt) : Prop :=
  Reveals wholeStatement (s.rendering * s.ending) goesOn (fun s' => s'.forgetLines = s.forgetLines)
    (s.Everywhere Stmt.Plain)

def RevealedAll (ss : List Stmt) : Prop :=
  ∀ s ∈ ss, s.Everywhere Stmt.Proper ∧ Revealed s

/-- The statements of a body are plain, with all that is inside them. -/
def PlainBody (b : Block) : Prop :=
  ∀ s ∈ b.statements, s.Everywhere Stmt.Plain

theorem reveals_separated {s : Stmt} (h : Revealed s) :
    Reveals (separated wholeStatement) (s.rendering * s.separators) endsSeparators
      (fun s' => s'.forgetLines = s.forgetLines) (s.Everywhere Stmt.Plain) := by
  rw [Stmt.separators, ← mul_assoc]
  refine h.first (fun s' ts s'' rest hrun hs => ?_)
    (leads_semicolons endsSeparators_goesOn fun _ _ => rfl)
  obtain ⟨_, _, _, hpure⟩ := bind_ok hrun
  cases hpure
  exact hs

theorem reveals_statements {test : Token → Bool} {ss : List Stmt} (h : RevealedAll ss) :
    Reveals (many (whenNext test fun _ => separated wholeStatement)) (Stmt.renderingAll ss)
      endsSeparators (fun ss' => Stmt.forgetLinesAll ss' = Stmt.forgetLinesAll ss)
      (∀ s ∈ ss, s.Everywhere Stmt.Plain) := by
  simp only [renderingAll_eq_prod, Stmt.forgetLinesAll_eq_map]
  refine (reveals_many ss (fun s hs => reveals_separated (h s hs).2) (fun s hs plain => ?_)
    fun s hs => Starts.mul fun ts hts => ?_).mono (fun _ => map_eq_iff_forall₂.mp) id
  · exact inverts_separated (restored_statement ((h s hs).1.and plain))
  · obtain ⟨t, hhead, ht⟩ := starts_statement (h s hs).1.here ts hts
    exact ⟨t, hhead, endsSeparators_of_starts ht⟩

theorem reveals_body {ss : List Stmt} (h : RevealedAll ss) :
    Reveals (bodyStatements whole) (Stmt.renderingAll ss * word .rbrace "\x7d") anything
      (fun ss' => Stmt.forgetLinesAll ss' = Stmt.forgetLinesAll ss)
      (∀ s ∈ ss, s.Everywhere Stmt.Plain) := by
  rw [← one_mul (Stmt.renderingAll ss * _)]
  refine .after_known inverts_noSeparators (fun _ _ => ?_) ?_
  · refine (reveals_statements h).first (fun ss' ts ss'' rest hrun hss => ?_)
      (leads_word fun _ _ => rfl)
    obtain ⟨_, _, _, hpure⟩ := bind_ok hrun
    cases hpure
    exact hss
  · exact (leads_statements (fun s hs => starts_statement (h s hs).1.here) fun _ => id).mul
      (leads_word fun _ _ => rfl)

theorem reveals_block {b : Block} (h : RevealedAll b.statements) :
    Reveals (block whole) b.rendering anything (fun b' => b'.forgetLines = b.forgetLines)
      (PlainBody b) := by
  obtain ⟨ss, line⟩ := b
  refine .currentLine fun line => ?_
  rw [Block.rendering, Rendering.inBraces, mul_assoc]
  refine .after_some (by decide) ?_
  exact (reveals_body h).bind_pure fun ss' hss => by simpa [Block.statements] using hss

/-- A body after which the statement is made. -/
theorem reveals_lastBody {b : Block} {F : Follow} {S : β → Prop} {f : Block → β}
    (h : RevealedAll b.statements) (shown : ∀ b', S (f b') → b'.forgetLines = b.forgetLines) :
    Reveals (block whole >>= fun b' => pure (f b')) b.rendering F S (∀ b' ∈ [b], PlainBody b') :=
  ((reveals_block h).before.bind_pure shown).mono (fun _ => id) List.forall_mem_singleton.mpr

end Bodies

section Statements

variable {m : Language Token} {F : Follow} {S : Stmt → Prop} {Q : Prop}

theorem reveals_keyword {text : String} (q : Token → Parser Stmt)
    (hq : ∀ kind line column, afterStatementWord? whole ⟨kind, text, line, column⟩ =
      some (q ⟨kind, text, line, column⟩))
    (h : ∀ t, Reveals (q t) m F S Q) : Reveals wholeStatement (keyword text * m) F S Q := by
  intro ts hts rest hrest s rest' hrun hS
  obtain ⟨_, ⟨t, rfl, hkind, rfl⟩, v, hv, rfl⟩ := Language.mem_mul.mp hts
  rw [List.append_assoc, List.singleton_append,
    wholeStatement_of_keyword hkind (hq t.kind t.line t.column)] at hrun
  exact h t v hv rest hrest s rest' hrun hS

theorem revealed_of_compound {s : Stmt} (hs : s.isCompound = true) (plain : s.Plain)
    (h : Reveals wholeStatement s.rendering goesOn (fun s' => s'.forgetLines = s.forgetLines)
      (∀ b ∈ s.bodies, PlainBody b)) : Revealed s := by
  rw [Revealed, Stmt.ending, hs, if_pos rfl, mul_one]
  exact h.mono (fun _ => id) (.intro plain)

theorem inverts_plainBody {b : Block} (h : RevealedAll b.statements) (plain : PlainBody b) :
    Inverts (block whole) b.rendering anything fun b' => b'.forgetLines = b.forgetLines :=
  inverts_block (restoredAll (fun s hs => (h s hs).1) plain)

theorem revealed_conditional {c : Expr} {t : Block} {e : Option Block} {line : Nat}
    (wf : c.WellFormed) (ht : RevealedAll t.statements) (he : ∀ b ∈ e, RevealedAll b.statements) :
    Revealed (.conditional c t e line) := by
  refine revealed_of_compound rfl trivial ?_
  have shown (c' : Expr) (line' : Nat) (t' : Block) (ts : List Token) (s' : Stmt)
      (rest : List Token)
      (hrun : (do
        let elseBranch ← after "else" (block whole)
        return Stmt.conditional c' t' elseBranch line') ts = .ok (s', rest))
      (hs : s'.forgetLines = (Stmt.conditional c t e line).forgetLines) :
      t'.forgetLines = t.forgetLines := by
    obtain ⟨e', _, _, hpure⟩ := bind_ok hrun
    cases hpure
    cases e <;> cases e' <;> simp_all
  cases e with
  | none =>
    rw [Stmt.rendering, mul_assoc]
    refine reveals_keyword (fun w => conditional whole w.line) (fun _ _ _ => rfl) fun w => ?_
    refine .andThen (inverts_condition wf) fun c' hc => ?_
    rw [← mul_one t.rendering]
    refine ((reveals_block ht).first (shown c' w.line) fun _ _ _ _ => trivial).mono (fun _ => id) ?_
    exact List.forall_mem_singleton.mpr
  | some e =>
    rw [Stmt.rendering, mul_assoc, mul_assoc]
    refine reveals_keyword (fun w => conditional whole w.line) (fun _ _ _ => rfl) fun w => ?_
    refine .andThen (inverts_condition wf) fun c' hc => ?_
    have elseBranch (t' : Block) : Reveals (do
          let elseBranch ← after "else" (block whole)
          return Stmt.conditional c' t' elseBranch w.line) (keyword "else" * e.rendering) goesOn
        (fun s' => s'.forgetLines = (Stmt.conditional c t (some e) line).forgetLines)
        (PlainBody e) := by
      refine .after_some (by decide) ((reveals_block (he e rfl)).before.bind_pure fun e' hs => ?_)
      simp only [Stmt.forgetLines, Stmt.conditional.injEq, Option.some.injEq] at hs
      exact hs.2.2.1
    refine (Reveals.both (reveals_block ht) (inverts_plainBody ht) (shown c' w.line)
      (fun t' _ => elseBranch t') fun _ _ _ _ => trivial).mono (fun _ => id) fun plain => ?_
    exact List.forall_mem_cons.mpr ⟨plain.1, List.forall_mem_singleton.mpr plain.2⟩

theorem revealed_whileLoop {c : Expr} {b : Block} {line : Nat} (wf : c.WellFormed)
    (hb : RevealedAll b.statements) : Revealed (.whileLoop c b line) := by
  refine revealed_of_compound rfl trivial ?_
  rw [Stmt.rendering, mul_assoc]
  refine reveals_keyword (fun w => whileLoop whole w.line) (fun _ _ _ => rfl) fun w => ?_
  refine .andThen (inverts_condition wf) fun c' _ => ?_
  refine reveals_lastBody hb fun b' hs => ?_
  simp only [Stmt.forgetLines, Stmt.whileLoop.injEq] at hs
  exact hs.2.1

theorem revealed_forLoop {i u : Simple} {c : Expr} {b : Block} {line : Nat} (hi : i.WellFormed)
    (hc : c.WellFormed) (hu : u.WellFormed) (hb : RevealedAll b.statements) :
    Revealed (.forLoop i c u b line) := by
  refine revealed_of_compound rfl trivial ?_
  rw [Stmt.rendering, Rendering.parenthesized]
  simp only [mul_assoc]
  refine reveals_keyword (fun w => forLoop whole w.line) (fun _ _ _ => rfl) fun w => ?_
  refine .andThen (inverts_expect (by decide)) fun _ _ => ?_
  refine .after_known (inverts_simple hi) (fun i' _ => ?_) (leads_word_mul fun _ _ => rfl)
  refine .andThen (inverts_expect (by decide)) fun _ _ => ?_
  refine .after_known (inverts_expression hc) (fun c' _ => ?_) (leads_word_mul fun _ _ => rfl)
  refine .andThen (inverts_expect (by decide)) fun _ _ => ?_
  refine .after_known (inverts_simple hu) (fun u' _ => ?_) (leads_word_mul fun _ _ => rfl)
  refine .andThen (inverts_expect (by decide)) fun _ _ => ?_
  refine reveals_lastBody hb fun b' hs => ?_
  simp only [Stmt.forgetLines, Stmt.forLoop.injEq] at hs
  exact hs.2.2.2.1

theorem revealed_function {f : String} {ps : List String} {b : Block} {line : Nat}
    (names : ∀ x ∈ ps, IsName x) (hb : RevealedAll b.statements) :
    Revealed (.function f ps b line) := by
  refine revealed_of_compound rfl trivial ?_
  simp only [Stmt.rendering, mul_assoc]
  refine reveals_keyword (fun w => function whole w.line) (fun _ _ _ => rfl) fun w => ?_
  refine .andThen (inverts_name _) fun f' _ => ?_
  refine .andThen (inverts_params names) fun ps' _ => ?_
  refine reveals_lastBody hb fun b' hs => ?_
  simp only [Stmt.forgetLines, Stmt.function.injEq] at hs
  exact hs.2.2.1

theorem reveals_catchClause {x : String} {b : Block} (hb : RevealedAll b.statements) :
    Reveals (catchClause whole) (Rendering.parenthesized (identifier x) * b.rendering) anything
      (fun clause => clause.1 = x ∧ clause.2.forgetLines = b.forgetLines) (PlainBody b) := by
  simp only [Rendering.parenthesized, mul_assoc]
  refine .andThen (inverts_expect (by decide)) fun _ _ => ?_
  refine .andThen (inverts_name _) fun x' _ => ?_
  refine .andThen (inverts_expect (by decide)) fun _ _ => ?_
  exact (reveals_block hb).bind_pure fun b' hs => hs.2

theorem caught?_forgetLines (h : Handlers) :
    h.forgetLines.caught? = h.caught?.map fun clause => (clause.1, clause.2.forgetLines) := by
  cases h <;> rfl

/-- What is made of a clause keeps its variable and its body. -/
theorem shown_afterCatch {h : Handlers} {x : String} {b : Block} (hcaught : h.caught? = some (x, b))
    (clause : String × Block) (ts : List Token) (h' : Handlers) (rest : List Token)
    (hrun : afterCatch whole clause ts = .ok (h', rest)) (hh : h'.forgetLines = h.forgetLines) :
    clause.1 = x ∧ clause.2.forgetLines = b.forgetLines := by
  have hclause : h'.caught? = some clause := by
    obtain ⟨f, _, _, hpure⟩ := bind_ok hrun
    cases f <;> cases hpure <;> rfl
  have hsame := caught?_forgetLines h'
  rw [hh, caught?_forgetLines, hcaught, hclause] at hsame
  simp only [Option.map_some, Option.some.injEq, Prod.mk.injEq] at hsame
  exact ⟨hsame.1.symm, hsame.2.symm⟩

theorem reveals_handlers {h : Handlers} (hbodies : ∀ b ∈ h.bodies, RevealedAll b.statements) :
    Reveals (handlers whole) h.rendering goesOn (fun h' => h'.forgetLines = h.forgetLines)
      (∀ b ∈ h.bodies, PlainBody b) := by
  cases h with
  | catchOnly x b =>
    have hb := hbodies b (by simp [Handlers.bodies])
    rw [Handlers.rendering, mul_assoc]
    refine .after_some (by decide) ?_
    rw [← mul_one (_ * b.rendering)]
    exact ((reveals_catchClause hb).first (shown_afterCatch rfl) fun _ _ _ _ => trivial).mono
      (fun _ => id) List.forall_mem_singleton.mpr
  | finallyOnly f =>
    have hf := hbodies f (by simp [Handlers.bodies])
    rw [Handlers.rendering]
    refine .after_none ?_ (leads_word_mul fun _ _ => rfl)
    refine .after_some (by decide) ?_
    refine reveals_lastBody hf fun f' hh => ?_
    simpa using hh
  | catchFinally x b f =>
    have hb := hbodies b (by simp [Handlers.bodies])
    have hf := hbodies f (by simp [Handlers.bodies])
    have back (plain : PlainBody b) :=
      inverts_catchClause (x := x) (restoredAll (fun s hs => (hb s hs).1) plain)
    have final (clause : String × Block) :
        Reveals (afterCatch whole clause) (keyword "finally" * f.rendering) goesOn
          (fun h' => h'.forgetLines = (Handlers.catchFinally x b f).forgetLines) (PlainBody f) := by
      refine .after_some (by decide) ((reveals_block hf).before.bind_pure fun f' hh => ?_)
      simp only [Handlers.forgetLines, Handlers.catchFinally.injEq] at hh
      exact hh.2.2
    rw [Handlers.rendering, mul_assoc, mul_assoc, ← mul_assoc (Rendering.parenthesized _)]
    refine .after_some (by decide) ?_
    refine (Reveals.both (reveals_catchClause hb) back (shown_afterCatch rfl)
      (fun clause _ => final clause) fun _ _ _ _ => trivial).mono (fun _ => id) fun plain => ?_
    exact List.forall_mem_cons.mpr ⟨plain.1, List.forall_mem_singleton.mpr plain.2⟩

theorem revealed_tryBlock {b : Block} {h : Handlers} {line : Nat} (hb : RevealedAll b.statements)
    (hbodies : ∀ b ∈ h.bodies, RevealedAll b.statements) : Revealed (.tryBlock b h line) := by
  refine revealed_of_compound rfl trivial ?_
  rw [Stmt.rendering, mul_assoc]
  refine reveals_keyword (fun w => tryBlock whole w.line) (fun _ _ _ => rfl) fun w => ?_
  refine (Reveals.both (reveals_block hb) (inverts_plainBody hb) ?_ (fun b' _ => ?_)
    fun _ _ _ _ => trivial).mono (fun _ => id) List.forall_mem_cons.mpr
  · intro b' ts s' rest hrun hs
    obtain ⟨h', _, _, hpure⟩ := bind_ok hrun
    cases hpure
    simp only [Stmt.forgetLines, Stmt.tryBlock.injEq] at hs
    exact hs.1
  · refine (reveals_handlers hbodies).bind_pure fun h' hs => ?_
    simp only [Stmt.forgetLines, Stmt.tryBlock.injEq] at hs
    exact hs.2.1

theorem reveals_member {m : Member} (proper : m.Proper)
    (hbodies : ∀ b ∈ m.bodies, RevealedAll b.statements) :
    Reveals (member whole) m.rendering anything (fun m' => m'.forgetLines = m.forgetLines)
      (∀ b ∈ m.bodies, PlainBody b) := by
  cases m with
  | field x a e line => exact fun _ _ _ _ _ _ _ _ _ hb => by cases hb
  | method m a ps b v o line =>
    have hb := hbodies b (by simp [Member.bodies])
    rw [Member.rendering, mul_assoc, mul_assoc, mul_assoc, mul_assoc, mul_assoc]
    refine .currentLine fun line => ?_
    refine .andThen (inverts_access a) fun a' _ => ?_
    rw [← mul_assoc]
    refine .after_known (inverts_modifiers proper.2.2) (fun flags _ => ?_)
      (leads_word_mul fun _ _ => rfl)
    refine .after_some (by decide) (Reveals.bind_pure ?_ fun _ => id)
    refine .andThen (inverts_name _) fun m' _ => ?_
    refine .andThen (inverts_params proper.2.1) fun ps' _ => ?_
    refine reveals_lastBody hb fun b' hs => ?_
    simp only [Member.forgetLines, Member.method.injEq] at hs
    exact hs.2.2.2.1

theorem reveals_members {ms : List Member} (proper : ∀ m ∈ ms, m.Proper)
    (hbodies : ∀ b ∈ ms.flatMap Member.bodies, RevealedAll b.statements) :
    Reveals (Parser.inBraces (member whole)) (Rendering.inBraces (Member.renderingAll ms)) anything
      (fun ms' => Member.forgetLinesAll ms' = Member.forgetLinesAll ms)
      (∀ b ∈ ms.flatMap Member.bodies, PlainBody b) := by
  have inside (m : Member) (hm : m ∈ ms) (b : Block) (hb : b ∈ m.bodies) :=
    hbodies b (List.mem_flatMap.mpr ⟨m, hm, hb⟩)
  have members : Reveals (many (unlessClosed (member whole))) (ms.map Member.rendering).prod
      anything (List.Forall₂ (fun m m' => m'.forgetLines = m.forgetLines) ms)
      (∀ m ∈ ms, ∀ b ∈ m.bodies, PlainBody b) := by
    refine reveals_many ms (fun m hm => reveals_member (proper m hm) (inside m hm))
      (fun m hm plain => inverts_member (proper m hm) fun b hb => ?_) fun m _ ts hts => ?_
    · exact restoredAll (fun s hs => (inside m hm b hb s hs).1) (plain b hb)
    · obtain ⟨t, hhead, _⟩ := starts_member m ts hts
      exact ⟨t, hhead, trivial⟩
  simp only [renderingAll_members_eq_prod, Member.forgetLinesAll_eq_map, Rendering.inBraces,
    mul_assoc]
  refine .andThen (inverts_expect (by decide)) fun _ _ => ?_
  refine (members.first (fun ms' ts ms'' rest hrun hms => ?_) fun _ _ _ _ => trivial).mono
    (fun _ => id) fun plain b hb => ?_
  · obtain ⟨_, _, _, hpure⟩ := bind_ok hrun
    cases hpure
    exact map_eq_iff_forall₂.mp hms
  · obtain ⟨m, hm, hb⟩ := List.mem_flatMap.mp hb
    exact plain m hm b hb

theorem revealed_classDecl {c : String} {base : Option String} {is : List String}
    {ms : List Member} {line : Nat} (proper : ∀ m ∈ ms, m.Proper)
    (hbodies : ∀ b ∈ ms.flatMap Member.bodies, RevealedAll b.statements) :
    Revealed (.classDecl c base is ms line) := by
  refine revealed_of_compound rfl trivial ?_
  rw [Stmt.rendering, mul_assoc, mul_assoc, mul_assoc]
  refine reveals_keyword (fun w => classDecl whole w.line) (fun _ _ _ => rfl) fun w => ?_
  refine .andThen (inverts_name _) fun c' _ => ?_
  refine .after_known (inverts_base base) (fun base' _ => ?_)
    (leads_implemented (leads_inBraces fun _ _ => rfl) fun _ _ => rfl)
  refine .after_known (inverts_interfaces is) (fun found _ => ?_) (leads_inBraces fun _ _ => rfl)
  refine (reveals_members proper hbodies).before.bind_pure fun ms' hs => ?_
  simp only [Stmt.forgetLines, Stmt.classDecl.injEq] at hs
  exact hs.2.2.2.1

end Statements

section Names

theorem starts_enclosed_paren {e : Expr} {rank : Nat}
    (h : (rank < e.rank || e.startsParen) = true)
    (inside : e.startsParen = true → Starts e.rendering (continuesName · = true)) :
    Starts (enclosed (rank < e.rank) e.rendering) (continuesName · = true) := by
  rw [enclosed]
  split
  · exact starts_parenthesized _ fun _ _ => rfl
  · rename_i hrank
    exact inside (by simpa [hrank] using h)

theorem starts_paren {e : Expr} (wf : e.WellFormed) :
    e.startsParen = true → Starts e.rendering (continuesName · = true) := by
  induction wf with
  | @intro e here inside ih =>
    intro h
    cases e with
    | binary op l r line => exact (starts_enclosed_paren h (ih l (by simp [Expr.operands]))).mul.mul
    | member e x line => exact (starts_enclosed_paren h (ih e List.mem_cons_self)).mul.mul
    | methodCall e m args line =>
      exact (starts_enclosed_paren h (ih e List.mem_cons_self)).mul.mul.mul
    | _ => cases h

/-- After the variable `print` at the start comes an operator, if anything. -/
theorem print_of_startsPrint {e : Expr} (wf : e.WellFormed) : e.startsPrint = true →
    ∀ ts ∈ e.rendering, ∃ t tail, ts = t :: tail ∧ t.kind = .identifier ∧ t.text = "print" ∧
      ∀ u, tail.head? = some u → continuesName u = false := by
  induction wf with
  | @intro e here inside ih =>
    intro h
    cases e with
    | var x line =>
      have hx : x = "print" := by simpa [Expr.startsPrint] using h
      subst hx
      rintro ts ⟨t, rfl, hkind, htext⟩
      exact ⟨t, [], rfl, hkind, htext, by simp⟩
    | binary op l r line =>
      intro ts hts
      obtain ⟨hrank, hl⟩ : l.rank ≤ op.level + 2 ∧ l.startsPrint = true := by
        simpa [Expr.startsPrint] using h
      rw [Expr.rendering, enclosed, if_neg (by simpa using hrank), mul_assoc] at hts
      obtain ⟨u, hu, v, hv, rfl⟩ := Language.mem_mul.mp hts
      obtain ⟨t, tail, rfl, hkind, htext, hsecond⟩ := ih l (by simp [Expr.operands]) hl u hu
      refine ⟨t, tail ++ v, rfl, hkind, htext, fun w hw => ?_⟩
      have hop : Starts (word op.kind op.symbol) (continuesName · = false) :=
        starts_word fun _ _ => by cases op <;> rfl
      obtain ⟨w', hhead, hw'⟩ := hop.mul v hv
      rcases tail with _ | ⟨first, tail⟩
      · rw [List.nil_append, hhead] at hw
        cases hw
        exact hw'
      · exact hsecond w hw
    | _ => cases h

/-- Which of the two statements a name at the start makes. -/
theorem print_or_simple {t : Token} (hkind : t.kind = .identifier) {tail rest : List Token}
    {s : Stmt} (h : wholeStatement (t :: tail) = .ok (s, rest)) :
    if startsPrint t tail.head? then ∃ e line, s = .print e line else ∃ s', s = .simple s' := by
  rw [wholeStatement_eq, statementStep_of_name hkind] at h
  split
  · rename_i hprint
    rw [if_pos hprint] at h
    obtain ⟨value, mid, _, h⟩ := bind_ok (skip_bind_ok h)
    obtain ⟨_, _, _, h⟩ := bind_ok h
    cases h
    exact ⟨value, t.line, rfl⟩
  · rename_i hprint
    rw [if_neg hprint] at h
    obtain ⟨s', mid, _, h⟩ := bind_ok h
    obtain ⟨_, _, _, h⟩ := bind_ok h
    cases h
    exact ⟨s', rfl⟩

/-- A print statement whose value starts with a parenthesis is read as a call. -/
theorem revealed_print {e : Expr} {line : Nat} (wf : e.WellFormed) : Revealed (.print e line) := by
  intro ts hts rest _ s' rest' hrun hs
  refine .of_no_bodies (Bool.eq_false_iff.mpr fun hparen => ?_) rfl
  rw [Stmt.rendering, mul_assoc] at hts
  obtain ⟨_, ⟨t, rfl, hkind, _⟩, v, hv, rfl⟩ := Language.mem_mul.mp hts
  obtain ⟨u, hhead, hu⟩ := (starts_paren wf hparen).mul v hv
  have hsecond : (v ++ rest).head? = some u := by simp [hhead]
  rw [List.append_assoc, List.singleton_append] at hrun
  have hread := print_or_simple hkind hrun
  rw [if_neg (by simp [startsPrint, hsecond, hu])] at hread
  obtain ⟨s'', rfl⟩ := hread
  simp [Stmt.forgetLines] at hs

/-- An expression that starts with the variable `print` is read as a print statement. -/
theorem revealed_expr {e : Expr} {line : Nat} (wf : e.WellFormed) :
    Revealed (.simple (.expr e line)) := by
  intro ts hts rest _ s' rest' hrun hs
  refine .of_no_bodies (Bool.eq_false_iff.mpr fun hprint => ?_) rfl
  obtain ⟨u, hu, v, hv, rfl⟩ := Language.mem_mul.mp hts
  obtain ⟨t, tail, rfl, hkind, htext, hsecond⟩ := print_of_startsPrint wf hprint u hu
  have hstarts : startsPrint t (tail ++ v ++ rest).head? = true := by
    obtain ⟨stop, rfl, _, hstop⟩ := hv
    rcases tail with _ | ⟨second, tail⟩
    · simp [startsPrint, hkind, htext, continuesName, hstop]
    · simp [startsPrint, hkind, htext, hsecond second rfl]
  rw [List.cons_append, List.cons_append] at hrun
  have hread := print_or_simple hkind hrun
  rw [if_pos hstarts] at hread
  obtain ⟨e', line', rfl⟩ := hread
  simp [Stmt.forgetLines] at hs

end Names

section Programs

theorem revealed_of_no_bodies {s : Stmt} (plain : s.Plain) (hs : s.bodies = []) : Revealed s :=
  fun _ _ _ _ _ _ _ _ => .of_no_bodies plain hs

theorem revealed_statement {s : Stmt} (wf : s.Everywhere Stmt.Proper) : Revealed s := by
  induction wf with
  | @intro s proper inside ih =>
    have bodies (b : Block) (hb : b ∈ s.bodies) : RevealedAll b.statements :=
      fun s' hs => ⟨inside b hb s' hs, ih b hb s' hs⟩
    cases s with
    | simple s =>
      cases s with
      | expr e line => exact revealed_expr proper
      | assign x e line => exact revealed_of_no_bodies trivial rfl
      | assignMember e x v line => exact revealed_of_no_bodies trivial rfl
    | print e line => exact revealed_print proper
    | conditional c t e line =>
      refine revealed_conditional proper (bodies t (by simp [Stmt.bodies])) fun b hb => ?_
      exact bodies b (by simp_all [Stmt.bodies])
    | whileLoop c b line => exact revealed_whileLoop proper (bodies b (by simp [Stmt.bodies]))
    | forLoop i c u b line =>
      exact revealed_forLoop proper.1 proper.2.1 proper.2.2 (bodies b (by simp [Stmt.bodies]))
    | function f ps b line => exact revealed_function proper.2 (bodies b (by simp [Stmt.bodies]))
    | classDecl c base is ms line => exact revealed_classDecl proper.2.2.2 bodies
    | tryBlock b h line =>
      exact revealed_tryBlock (bodies b List.mem_cons_self) fun b' hb =>
        bodies b' (List.mem_cons_of_mem _ hb)
    | _ => exact revealed_of_no_bodies trivial rfl

theorem reveals_program {p : Program} (wf : p.WellFormed) :
    Reveals wholeProgram p.rendering (· = none) (fun q => q.forgetLines = p.forgetLines)
      p.Plain := by
  rw [Program.rendering, ← one_mul (Stmt.renderingAll _)]
  refine .after_known inverts_noSeparators (fun _ _ => ?_)
    (leads_statements (fun s hs => starts_statement (wf s hs).here) ?_)
  · have all : RevealedAll p.statements := fun s hs => ⟨wf s hs, revealed_statement (wf s hs)⟩
    have shown (ss : List Stmt) (hss : Program.forgetLines ⟨ss⟩ = p.forgetLines) :
        Stmt.forgetLinesAll ss = Stmt.forgetLinesAll p.statements := by
      simpa [Program.forgetLines] using hss
    intro ts hts rest hrest
    have hends : endsSeparators rest.head? := by
      rw [hrest]
      rfl
    exact (reveals_statements all).bind_pure shown ts hts rest hends
  · rintro next rfl
    rfl

end Programs

end ClassScript.Parser
