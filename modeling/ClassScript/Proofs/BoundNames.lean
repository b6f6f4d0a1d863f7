import ClassScript.Proofs.FrameRestoration
import ClassScript.Proofs.Lookahead
import ClassScript.Proofs.Rendering

/-!
# Parsed code binds no keyword

Code binds names by assignment, as parameters and as the variable of a `catch`. In all these places
the parser takes an identifier, and the scanner never makes an identifier of a keyword. So no parsed
program, at any depth of nesting, assigns `this` or takes it for a parameter.
-/

namespace ClassScript

def Member.params : Member → List String
  | .field .. => []
  | .method _ _ params _ _ _ _ => params

/-- The names that a statement binds, what its bodies bind left aside. -/
def Stmt.binds : Stmt → List String
  | .simple s => s.assigned
  | .forLoop initializer _ iterator _ _ => initializer.assigned ++ iterator.assigned
  | .function _ params _ _ => params
  | .classDecl _ _ _ members _ => members.flatMap Member.params
  | .tryBlock _ handlers _ => (handlers.caught?.map Prod.fst).toList
  | .print .. | .conditional .. | .whileLoop .. | .breakLoop .. | .continueLoop .. | .returnValue ..
  | .interfaceDecl .. | .throwValue .. | .importModule .. => []

/-- No keyword among the names. -/
def Unreserved (names : List String) : Prop :=
  ∀ x ∈ names, x ∉ Rule.keywords

theorem Unreserved.append {xs ys : List String} (hx : Unreserved xs) (hy : Unreserved ys) :
    Unreserved (xs ++ ys) := by
  intro x h
  rcases List.mem_append.mp h with h | h
  · exact hx x h
  · exact hy x h

/-- Neither a statement nor one inside it binds a keyword. -/
def Stmt.BindsNames (s : Stmt) : Prop :=
  s.Everywhere fun s => Unreserved s.binds

def Block.BindsNames (b : Block) : Prop :=
  ∀ s ∈ b.statements, s.BindsNames

namespace Stmt.BindsNames

variable {s : Stmt}

theorem of_bodies (here : Unreserved s.binds) (bodies : ∀ b ∈ s.bodies, b.BindsNames) :
    s.BindsNames :=
  .intro here bodies

theorem of_body {b : Block} (here : Unreserved s.binds) (hs : s.bodies = [b]) (hb : b.BindsNames) :
    s.BindsNames :=
  of_bodies here fun _ hb' => List.mem_singleton.mp (hs ▸ hb') ▸ hb

theorem of_nothing (here : s.binds = []) (hs : s.bodies = []) : s.BindsNames :=
  .of_no_bodies (by simp [here, Unreserved]) hs

theorem bodies (h : s.BindsNames) : ∀ b ∈ s.bodies, b.BindsNames := by
  cases h with
  | intro _ inside => exact inside

end Stmt.BindsNames

def Handlers.BindsNames (h : Handlers) : Prop :=
  Unreserved (h.caught?.map Prod.fst).toList ∧ ∀ b ∈ h.bodies, b.BindsNames

def Member.BindsNames (m : Member) : Prop :=
  Unreserved m.params ∧ ∀ b ∈ m.bodies, b.BindsNames

def Function.BindsNames (f : Function) : Prop :=
  Unreserved f.params ∧ f.body.BindsNames

def Program.BindsNames (p : Program) : Prop :=
  ∀ s ∈ p.statements, s.BindsNames

/-- An identifier that is no keyword, or a token of another kind. -/
def Token.IsUnreserved (t : Token) : Prop :=
  t.kind = .identifier → t.text ∉ Rule.keywords

namespace Rule

/-- The rules before that for identifiers, and those after it. -/
theorem all_split : ∃ after, all = [⟨none, blanks⟩, ⟨none, comment⟩, ⟨some .keyword, keyword⟩] ++
    ⟨some .identifier, identifier⟩ :: after ∧ ∀ r ∈ after, r.kind ≠ some .identifier :=
  ⟨_, rfl, by simp⟩

/-- The rule for identifiers applies only where that for keywords does not. -/
theorem keyword_eq_zero {cs : List Char} {r : Rule} (h : first? cs = some r)
    (hr : r.kind = some .identifier) : r = ⟨some .identifier, identifier⟩ ∧ keyword cs = 0 := by
  obtain ⟨after, hall, hafter⟩ := all_split
  rw [first?, hall, List.find?_append, Option.or_eq_some_iff] at h
  rcases h with hbefore | ⟨hbefore, hrest⟩
  · have hmem := List.mem_of_find?_eq_some hbefore
    simp only [List.mem_cons, List.not_mem_nil, or_false] at hmem
    rcases hmem with rfl | rfl | rfl <;> cases hr
  · constructor
    · rcases List.mem_cons.mp (List.mem_of_find?_eq_some hrest) with rfl | hmem
      · rfl
      · exact absurd hr (hafter r hmem)
    · simpa using List.find?_eq_none.mp hbefore ⟨some .keyword, keyword⟩ (by simp)

theorem identifier_unreserved {cs : List Char} {r : Rule} (h : first? cs = some r)
    (hr : r.kind = some .identifier) : String.ofList (cs.take (r.extent cs)) ∉ keywords := by
  have hpos := extent_pos_of_first? h
  obtain ⟨rfl, hnone⟩ := keyword_eq_zero h hr
  have hextent : identifier cs = (word cs).length := by
    dsimp only at hpos
    rw [identifier] at hpos ⊢
    cases hword : word cs with
    | nil => rfl
    | cons c rest =>
      rw [hword] at hpos
      dsimp only at hpos ⊢
      split
      · rfl
      · rename_i hnot
        rw [if_neg hnot] at hpos
        omega
  have htake : cs.take (word cs).length = word cs :=
    (List.prefix_iff_eq_take.mp (List.takeWhile_prefix _)).symm
  dsimp only at hpos ⊢
  rw [hextent, htake]
  intro hmem
  rw [keyword, if_pos (by simpa using hmem)] at hnone
  omega

end Rule

theorem scanFrom_unreserved {read : List Token} (hread : ∀ t ∈ read, t.IsUnreserved) (p : Position)
    (skip : Nat) (cs : List Char) :
    ∀ t ∈ (Scan.scanFrom read p skip cs).tokens, t.IsUnreserved := by
  fun_induction Scan.scanFrom read p skip cs with
  | case1 read p skip => simpa using hread
  | case2 read p skip c cs ih => exact ih hread
  | case3 read p c cs hnone => simpa using hread
  | case4 read p c cs r hrule extent ih =>
    refine ih fun t ht => ?_
    rcases List.mem_append.mp ht with ht | ht
    · obtain ⟨kind, hkind, rfl⟩ := Option.map_eq_some_iff.mp (Option.mem_toList.mp ht)
      intro hid
      dsimp only at hid
      exact Rule.identifier_unreserved hrule (by rw [hkind, hid])
    · exact hread t ht

/-- The scanner makes no identifier of a keyword. -/
theorem scan_unreserved (source : String) : ∀ t ∈ (scan source).tokens, t.IsUnreserved :=
  scanFrom_unreserved (by simp) _ _ _

namespace Parser

variable {α β : Type}

/-- On tokens of which no identifier is a keyword, `p` gives only results with `P` and leaves such
tokens. -/
def Yields (P : α → Prop) (p : Parser α) : Prop :=
  ∀ ts, (∀ t ∈ ts, t.IsUnreserved) → ∀ a rest, p ts = .ok (a, rest) →
    P a ∧ ∀ t ∈ rest, t.IsUnreserved

/-- Nothing is asked of the result. -/
def anyResult : α → Prop := fun _ => True

namespace Yields

variable {P : α → Prop} {Q : β → Prop} {p : Parser α}

theorem pure {a : α} (h : P a) : Yields P (Pure.pure a) := by
  rintro ts hts b rest ⟨⟩
  exact ⟨h, hts⟩

theorem bind {k : α → Parser β} (hp : Yields P p) (hk : ∀ a, P a → Yields Q (k a)) :
    Yields Q (p >>= k) := by
  intro ts hts b rest h
  obtain ⟨a, mid, hfirst, hnext⟩ := bind_ok h
  obtain ⟨ha, hmid⟩ := hp ts hts a mid hfirst
  exact hk a ha mid hmid b rest hnext

theorem map {f : α → β} (hp : Yields P p) (hf : ∀ a, P a → Q (f a)) :
    Yields Q (p >>= fun a => Pure.pure (f a)) :=
  hp.bind fun a ha => .pure (hf a ha)

/-- What a parser leaves is a part of what it was given. -/
theorem of_alike {n : Nat} {q : Parser α} (h : Alike n p q) : Yields anyResult p := by
  intro ts hts a rest hok
  obtain ⟨pre, rfl, _⟩ := (h ts).reads_of_ended (show p ts = ended (.ok a) rest from hok)
  exact ⟨trivial, fun t ht => hts t (List.mem_append_right pre ht)⟩

theorem fail (e : Expectation) : Yields P (Parser.fail e) := by
  rintro ts hts a rest ⟨⟩

theorem name (role : NameRole) : Yields (· ∉ Rule.keywords) (Parser.name role) := by
  intro ts hts a rest hok
  obtain ⟨next, mid, hpeek, hname⟩ := bind_ok hok
  cases hpeek
  cases ts with
  | nil => cases hname
  | cons t tail =>
    dsimp only [List.head?_cons] at hname
    split at hname
    · rename_i hid
      cases hname
      exact ⟨hts t List.mem_cons_self hid, fun u hu => hts u (List.mem_cons_of_mem t hu)⟩
    · cases hname

theorem optionally {wanted : Token → Option β} {p : Token → β → Parser α}
    (h : ∀ t b, t.IsUnreserved → Yields P (p t b)) :
    Yields (fun a => ∀ b ∈ a, P b) (Parser.optionally wanted p) := by
  intro ts hts a rest hok
  obtain ⟨next, mid, hpeek, hrest⟩ := bind_ok hok
  cases hpeek
  cases ts with
  | nil => cases hrest; exact ⟨by simp, hts⟩
  | cons t tail =>
    dsimp only [List.head?_cons] at hrest
    cases hw : wanted t with
    | none => rw [hw] at hrest; cases hrest; exact ⟨by simp, hts⟩
    | some b =>
      rw [hw] at hrest
      have some : Yields (fun a => ∀ b ∈ a, P b) (do return Option.some (← p t b)) :=
        (h t b (hts t List.mem_cons_self)).map fun a ha => by simpa using ha
      exact some _ hts a rest hrest

theorem whenNext {test : Token → Bool} {p : Token → Parser α}
    (h : ∀ t, t.IsUnreserved → Yields P (p t)) :
    Yields (fun a => ∀ b ∈ a, P b) (Parser.whenNext test p) :=
  optionally fun t _ ht => h t ht

theorem skip : Yields anyResult Parser.skip :=
  of_alike (n := 0) alike_skip

theorem after {text : String} (h : Yields P p) :
    Yields (fun a => ∀ b ∈ a, P b) (Parser.after text p) :=
  whenNext fun _ _ => skip.bind fun _ _ => h

theorem expect (text : String) : Yields anyResult (Parser.expect text) :=
  of_alike (n := 0) (alike_expect text)

theorem currentLine : Yields anyResult Parser.currentLine :=
  of_alike (n := 0) alike_currentLine

theorem endSimple : Yields anyResult Parser.endSimple :=
  of_alike (n := 0) alike_endSimple

theorem skipSeparators : Yields anyResult Parser.skipSeparators :=
  of_alike (n := 0) alike_skipSeparators

theorem peek : Yields (fun a => ∀ t ∈ a, t.IsUnreserved) Parser.peek := by
  rintro ts hts a rest ⟨⟩
  exact ⟨fun t ht => hts t (List.mem_of_head? ht), hts⟩

theorem peekSecond : Yields anyResult Parser.peekSecond := by
  rintro ts hts a rest ⟨⟩
  exact ⟨trivial, hts⟩

theorem many {item : Parser (Option α)} (h : Yields (fun a => ∀ b ∈ a, P b) item) :
    Yields (fun as => ∀ a ∈ as, P a) (Parser.many item) := by
  have main (bound : List Token) (as : List α) (has : ∀ a ∈ as, P a) :
      Yields (fun as => ∀ a ∈ as, P a) (iterate (oneMore item) bound as) := by
    induction bound generalizing as with
    | nil => exact .pure has
    | cons t bound ih =>
      have more : Yields (fun r => ∀ bs ∈ r, ∀ a ∈ bs, P a) (oneMore item as) := by
        refine h.map fun a ha bs hbs b hb => ?_
        obtain ⟨a', ha', rfl⟩ := Option.map_eq_some_iff.mp hbs
        rcases List.mem_append.mp hb with hb | hb
        · exact has b hb
        · exact List.mem_singleton.mp hb ▸ ha a' ha'
      refine more.bind fun r hr => ?_
      cases r with
      | none => exact .pure has
      | some bs => exact ih bs (hr bs rfl)
  exact fun ts => main ts [] (by simp) ts

theorem commaSeparated (h : Yields P p) :
    Yields (fun as => ∀ a ∈ as, P a) (Parser.commaSeparated p) := by
  refine h.bind fun first hfirst => (many (after h)).map fun rest hrest => ?_
  exact List.forall_mem_cons.mpr ⟨hfirst, hrest⟩

theorem parenthesized (h : Yields P p) :
    Yields (fun as => ∀ a ∈ as, P a) (Parser.parenthesized p) := by
  have items : Yields (fun as => ∀ a ∈ as, P a) (listedItems p) := by
    refine (of_alike (n := 0) (alike_check ")")).bind fun closed _ => ?_
    split
    · exact .pure (by simp)
    · exact commaSeparated h
  exact (expect _).bind fun _ _ => items.bind fun as has => (expect _).map fun _ _ => has

theorem unlessClosed (h : Yields P p) :
    Yields (fun as => ∀ a ∈ as, P a) (Parser.many (Parser.unlessClosed p)) :=
  many (whenNext fun _ _ => h)

theorem inBraces (h : Yields P p) : Yields (fun as => ∀ a ∈ as, P a) (Parser.inBraces p) :=
  (expect _).bind fun _ _ => (unlessClosed h).bind fun _ has => (expect _).map fun _ _ => has

end Yields

/-- The parsers one level further in bind no keyword. -/
structure Inner.BindsNames (p : Inner) : Prop where
  expression : Yields anyResult p.expression
  statement : Yields Stmt.BindsNames p.statement

section Statements

variable {p : Inner} (h : p.BindsNames)

include h

theorem yields_simple : Yields (fun s => Unreserved s.assigned) (simple p.expression) := by
  have fromExpression :
      Yields (fun s => Unreserved s.assigned) (simpleFromExpression p.expression) := by
    refine Yields.currentLine.bind fun line _ => h.expression.bind fun e _ => ?_
    rw [afterExpression]
    split
    · exact .pure (by simp [Simple.assigned, Unreserved])
    · refine (Yields.whenNext fun _ _ => .bind .skip fun _ _ => h.expression).bind fun v _ => ?_
      cases v <;> exact .pure (by simp [Simple.assigned, Unreserved])
  refine Yields.peek.bind fun first hfirst => Yields.peekSecond.bind fun second _ => ?_
  rcases first with _ | x
  · exact fromExpression
  rcases second with _ | eq
  · exact fromExpression
  dsimp only
  split
  · rename_i hassign
    refine Yields.skip.bind fun _ _ => Yields.skip.bind fun _ _ => h.expression.map fun e _ => ?_
    simpa [Simple.assigned, Unreserved] using hfirst x rfl hassign.1
  · exact fromExpression

theorem yields_block : Yields Block.BindsNames (block p) := by
  have separated : Yields Stmt.BindsNames (separated p.statement) :=
    h.statement.bind fun s hs => Yields.skipSeparators.map fun _ _ => hs
  have body : Yields (fun ss => ∀ s ∈ ss, s.BindsNames) (bodyStatements p) :=
    Yields.skipSeparators.bind fun _ _ => (Yields.unlessClosed separated).bind fun _ hss =>
      (Yields.expect _).map fun _ _ => hss
  refine Yields.currentLine.bind fun line _ => (Yields.after body).bind fun ss hss => ?_
  cases ss with
  | some ss => exact .pure (hss ss rfl)
  | none => exact h.statement.map fun s hs s' hs' => List.mem_singleton.mp hs' ▸ hs

theorem yields_condition : Yields anyResult (condition p) :=
  (Yields.expect _).bind fun _ _ => h.expression.bind fun _ _ =>
    (Yields.expect _).map fun _ _ => trivial

omit h in
theorem yields_params : Yields Unreserved params :=
  Yields.parenthesized (.name _)

theorem yields_conditional (line : Nat) : Yields Stmt.BindsNames (conditional p line) := by
  refine (yields_condition h).bind fun c _ => (yields_block h).bind fun t ht => ?_
  refine (Yields.after (yields_block h)).map fun e he => ?_
  refine .of_bodies (by simp [Stmt.binds, Unreserved]) fun b hb => ?_
  rcases List.mem_cons.mp hb with rfl | hb
  · exact ht
  · exact he b (Option.mem_toList.mp hb)

theorem yields_whileLoop (line : Nat) : Yields Stmt.BindsNames (whileLoop p line) := by
  refine (yields_condition h).bind fun c _ => (yields_block h).map fun b hb => ?_
  exact .of_body (by simp [Stmt.binds, Unreserved]) rfl hb

theorem yields_forLoop (line : Nat) : Yields Stmt.BindsNames (forLoop p line) := by
  refine (Yields.expect _).bind fun _ _ => (yields_simple h).bind fun i hi => ?_
  refine (Yields.expect _).bind fun _ _ => h.expression.bind fun c _ => ?_
  refine (Yields.expect _).bind fun _ _ => (yields_simple h).bind fun u hu => ?_
  refine (Yields.expect _).bind fun _ _ => (yields_block h).map fun b hb => ?_
  exact .of_body (hi.append hu) rfl hb

theorem yields_function (line : Nat) : Yields Stmt.BindsNames (function p line) := by
  refine (Yields.name _).bind fun f _ => yields_params.bind fun ps hps => ?_
  exact (yields_block h).map fun b hb => .of_body hps rfl hb

theorem yields_returnValue (line : Nat) : Yields Stmt.BindsNames (returnValue p line) := by
  refine (Yields.whenNext fun _ _ => h.expression).bind fun v _ => ?_
  exact Yields.endSimple.map fun _ _ => .of_nothing rfl rfl

theorem yields_valueStatement {make : Expr → Stmt} (hmake : ∀ e, (make e).BindsNames) :
    Yields Stmt.BindsNames (valueStatement p make) :=
  h.expression.bind fun e _ => Yields.endSimple.map fun _ _ => hmake e

theorem yields_tryBlock (line : Nat) : Yields Stmt.BindsNames (tryBlock p line) := by
  have clause : Yields (fun c : String × Block => c.1 ∉ Rule.keywords ∧ c.2.BindsNames)
      (catchClause p) :=
    (Yields.expect _).bind fun _ _ => (Yields.name _).bind fun x hx =>
      (Yields.expect _).bind fun _ _ => (yields_block h).map fun b hb => ⟨hx, hb⟩
  have handlers : Yields Handlers.BindsNames (handlers p) := by
    refine (Yields.after clause).bind fun c hc => ?_
    cases c with
    | some c =>
      obtain ⟨hx, hb⟩ := hc c rfl
      have caught : Unreserved [c.1] := List.forall_mem_singleton.mpr hx
      refine (Yields.after (yields_block h)).bind fun f hf => ?_
      cases f with
      | some f => exact .pure ⟨caught, by simpa [Handlers.bodies] using ⟨hb, hf f rfl⟩⟩
      | none => exact .pure ⟨caught, by simpa [Handlers.bodies] using hb⟩
    | none =>
      refine (Yields.after (yields_block h)).bind fun f hf => ?_
      cases f with
      | some f =>
        exact .pure ⟨by simp [Handlers.caught?, Unreserved],
          by simpa [Handlers.bodies] using hf f rfl⟩
      | none => exact .fail _
  refine (yields_block h).bind fun b hb => handlers.map fun hs hhs => .of_bodies hhs.1 ?_
  exact List.forall_mem_cons.mpr ⟨hb, hhs.2⟩

theorem yields_member : Yields Member.BindsNames (member p) := by
  have method (a : Access) (flags : Bool × Bool) (line : Nat) :
      Yields Member.BindsNames (method p a flags line) :=
    (Yields.name _).bind fun m _ => yields_params.bind fun ps hps =>
      (yields_block h).map fun b hb => ⟨hps, by simpa [Member.bodies] using hb⟩
  have field (a : Access) (line : Nat) : Yields Member.BindsNames (field p a line) :=
    (Yields.name _).bind fun x _ =>
      (Yields.whenNext fun _ _ => .bind .skip fun _ _ => h.expression).bind fun e _ =>
        (Yields.expect _).map fun _ _ =>
          ⟨by simp [Member.params, Unreserved], by simp [Member.bodies]⟩
  refine Yields.currentLine.bind fun line _ => ?_
  refine (Yields.of_alike (n := 0) alike_access?).bind fun a _ => ?_
  refine (Yields.of_alike (n := 0) alike_modifiers).bind fun flags _ => ?_
  refine (Yields.after (method _ flags line)).bind fun m hm => ?_
  cases m with
  | some m => exact .pure (hm m rfl)
  | none => exact field _ line

theorem yields_classDecl (line : Nat) : Yields Stmt.BindsNames (classDecl p line) := by
  refine (Yields.name _).bind fun c _ => (Yields.after (.name _)).bind fun base _ => ?_
  refine (Yields.after (.commaSeparated (.name _))).bind fun is _ => ?_
  refine (Yields.inBraces (yields_member h)).map fun ms hms => .of_bodies ?_ ?_
  · intro x hx
    obtain ⟨m, hm, hx⟩ := List.mem_flatMap.mp hx
    exact (hms m hm).1 x hx
  · intro b hb
    obtain ⟨m, hm, hb⟩ := List.mem_flatMap.mp hb
    exact (hms m hm).2 b hb

theorem yields_simpleStatement : Yields Stmt.BindsNames (simpleStatement p) :=
  (yields_simple h).bind fun _ hs => Yields.endSimple.map fun _ _ => .of_no_bodies hs rfl

omit h in
theorem yields_interfaceDecl (line : Nat) : Yields Stmt.BindsNames (interfaceDecl line) := by
  refine (Yields.name _).bind fun i _ => ?_
  exact (Yields.inBraces (.of_alike (n := 0) alike_signature)).map fun _ _ => .of_nothing rfl rfl

omit h in
theorem yields_importModule (line : Nat) : Yields Stmt.BindsNames (importModule line) :=
  (Yields.name _).bind fun _ _ => (Yields.expect _).map fun _ _ => .of_nothing rfl rfl

omit h in
theorem yields_lone {s : Stmt} (hs : s.BindsNames) : Yields Stmt.BindsNames (lone s) :=
  Yields.endSimple.map fun _ _ => hs

theorem yields_afterStatementWord? {t : Token} {q : Parser Stmt}
    (hq : afterStatementWord? p t = some q) : Yields Stmt.BindsNames q := by
  unfold afterStatementWord? at hq
  split at hq <;> cases hq
  · exact yields_classDecl h _
  · exact yields_interfaceDecl _
  · exact yields_function h _
  · exact yields_conditional h _
  · exact yields_whileLoop h _
  · exact yields_forLoop h _
  · exact yields_returnValue h _
  · exact yields_tryBlock h _
  · exact yields_valueStatement h fun _ => .of_nothing rfl rfl
  · exact yields_importModule _
  · exact yields_lone (.of_nothing rfl rfl)
  · exact yields_lone (.of_nothing rfl rfl)

theorem yields_statementStep : Yields Stmt.BindsNames (statementStep p) := by
  refine Yields.peek.bind fun first _ => Yields.peekSecond.bind fun second _ => ?_
  cases first with
  | none => exact .fail _
  | some t =>
    dsimp only
    split
    · rw [keywordStatement]
      cases hq : afterStatementWord? p t with
      | some q => exact Yields.skip.bind fun _ _ => yields_afterStatementWord? h hq
      | none =>
        rw [pastFirst]
        split
        · exact yields_simpleStatement h
        · exact .fail _
    · split
      · exact Yields.skip.bind fun _ _ => yields_valueStatement h fun _ => .of_nothing rfl rfl
      · exact yields_simpleStatement h

end Statements

theorem yields_statement (depth : Nat) : Yields Stmt.BindsNames (statement depth) := by
  induction depth with
  | zero => rintro ts hts a rest ⟨⟩
  | succ depth ih =>
    exact yields_statementStep ⟨.of_alike (alike_expression (Nat.le_refl depth)), ih⟩

theorem yields_program (depth : Nat) : Yields Program.BindsNames (program depth) := by
  have separated : Yields Stmt.BindsNames (separated (statement depth)) :=
    (yields_statement depth).bind fun s hs => Yields.skipSeparators.map fun _ _ => hs
  exact Yields.skipSeparators.bind fun _ _ =>
    (Yields.many (.whenNext fun _ _ => separated)).map fun _ hss => hss

end Parser

/-- A parsed source binds no keyword. -/
theorem parseTokens_bindsNames {depth : Nat} {source : String} {p : Program}
    (h : parseTokens depth (scan source).tokens = .ok p) : p.BindsNames := by
  rw [parseTokens] at h
  split at h
  · rename_i q rest hok
    cases h
    exact (Parser.yields_program depth _ (scan_unreserved source) _ rest hok).1
  · cases h

end ClassScript
