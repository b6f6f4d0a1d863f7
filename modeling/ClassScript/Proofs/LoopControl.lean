import ClassScript.Proofs.DisciplineRules

/-!
# Loop control stays inside of loops

A `break` or `continue` is well placed when it lies in the body of a loop of the same function, the
same method or the same source. That is a condition on trees. In a session whose sources and
imported modules are well placed no run ends with a fault for loop control outside of a loop,
neither at the top level nor at the end of a call or of a module, whatever functions and methods of
earlier runs are called. Being well placed is a discipline, and the session keeps to it.

Whatever its body does, a loop itself never ends with loop control.
-/

namespace ClassScript

mutual

/-- Every `break` and `continue` in the statement is well placed, given whether the statement lies
in a loop. -/
def Stmt.placed (inLoop : Bool) : Stmt → Bool
  | .breakLoop _ | .continueLoop _ => inLoop
  | .conditional _ thenBranch none _ => thenBranch.placed inLoop
  | .conditional _ thenBranch (some elseBranch) _ =>
    thenBranch.placed inLoop && elseBranch.placed inLoop
  | .whileLoop _ body _ | .forLoop _ _ _ body _ => body.placed true
  | .function _ _ body _ => body.placed false
  | .classDecl _ _ _ members _ => Member.placedAll members
  | .tryBlock body handlers _ => body.placed inLoop && handlers.placed inLoop
  | .simple _ | .print .. | .returnValue .. | .interfaceDecl .. | .throwValue ..
  | .importModule .. => true

def Stmt.placedAll (inLoop : Bool) : List Stmt → Bool
  | [] => true
  | s :: ss => s.placed inLoop && Stmt.placedAll inLoop ss

def Block.placed (inLoop : Bool) : Block → Bool
  | .mk statements _ => Stmt.placedAll inLoop statements

def Handlers.placed (inLoop : Bool) : Handlers → Bool
  | .catchOnly _ body | .finallyOnly body => body.placed inLoop
  | .catchFinally _ caught final => caught.placed inLoop && final.placed inLoop

def Member.placed : Member → Bool
  | .field .. => true
  | .method _ _ _ body _ _ _ => body.placed false

def Member.placedAll : List Member → Bool
  | [] => true
  | m :: ms => m.placed && Member.placedAll ms

end

/-- Every `break` and `continue` in the source is well placed. -/
def Program.placed (p : Program) : Bool :=
  Stmt.placedAll false p.statements

theorem Stmt.placedAll_iff {inLoop : Bool} {ss : List Stmt} :
    Stmt.placedAll inLoop ss = true ↔ ∀ s ∈ ss, s.placed inLoop = true := by
  induction ss with
  | nil => simp [Stmt.placedAll]
  | cons s ss ih => simp [Stmt.placedAll, ih]

theorem Member.placedAll_iff {ms : List Member} :
    Member.placedAll ms = true ↔ ∀ m ∈ ms, m.placed = true := by
  induction ms with
  | nil => simp [Member.placedAll]
  | cons m ms ih => simp [Member.placedAll, ih]

theorem Block.placed_iff {inLoop : Bool} {b : Block} :
    b.placed inLoop = true ↔ ∀ s ∈ b.statements, s.placed inLoop = true := by
  cases b with
  | mk statements line => exact Stmt.placedAll_iff

theorem Handlers.placed_bodies {inLoop : Bool} {h : Handlers} (placed : h.placed inLoop = true)
    {b : Block} (hb : b ∈ h.bodies) : b.placed inLoop = true := by
  cases h with
  | catchOnly x body => exact List.mem_singleton.mp hb ▸ placed
  | finallyOnly body => exact List.mem_singleton.mp hb ▸ placed
  | catchFinally x body final =>
    obtain ⟨hbody, hfinal⟩ := Bool.and_eq_true_iff.mp placed
    rcases List.mem_pair.mp hb with rfl | rfl
    · exact hbody
    · exact hfinal

theorem Member.placed_bodies {m : Member} (placed : m.placed = true) {b : Block}
    (hb : b ∈ m.bodies) : b.placed false = true := by
  cases m with
  | field x a e line => cases hb
  | method x a ps body v o line => exact List.mem_singleton.mp hb ▸ placed

/-- The bodies of a well placed statement are well placed. -/
theorem Stmt.placed_bodies {inLoop : Bool} {s : Stmt} (placed : s.placed inLoop = true) {b : Block}
    (hb : b ∈ s.bodies) : b.placed (s.opensLoop inLoop) = true := by
  cases s with
  | conditional condition thenBranch elseBranch line =>
    cases elseBranch with
    | none => exact List.mem_singleton.mp hb ▸ placed
    | some elseBranch =>
      obtain ⟨hthen, helse⟩ := Bool.and_eq_true_iff.mp placed
      rcases List.mem_pair.mp hb with rfl | rfl
      · exact hthen
      · exact helse
  | whileLoop condition body line => exact List.mem_singleton.mp hb ▸ placed
  | forLoop initializer condition iterator body line => exact List.mem_singleton.mp hb ▸ placed
  | function name params body line => exact List.mem_singleton.mp hb ▸ placed
  | classDecl name base interfaces members line =>
    obtain ⟨m, hm, hbm⟩ := List.mem_flatMap.mp hb
    exact Member.placed_bodies (Member.placedAll_iff.mp placed m hm) hbm
  | tryBlock body handlers line =>
    obtain ⟨hbody, hhandlers⟩ := Bool.and_eq_true_iff.mp placed
    rcases List.mem_cons.mp hb with rfl | hb
    · exact hbody
    · exact Handlers.placed_bodies hhandlers hb
  | _ => cases hb

/-- To be well placed, and to end with no fault for loop control. -/
def wellPlaced : Discipline where
  stmt inLoop s := s.placed inLoop = true
  expr _ := True
  cause c := c.isLoopControl = false
  raises := True
  exprs_of _ _ _ := trivial
  operands_of _ _ _ := trivial
  inside placed b hb := Block.placed_iff.mp (Stmt.placed_bodies placed hb)
  throws _ := trivial
  control {l s} placed control := by
    cases s with
    | breakLoop line => exact Or.inl placed
    | continueLoop line => exact Or.inl placed
    | _ => cases control
  ordinary h := h

section Wording

/-! A literal is the text of its characters, so that the start of a message can be read off. -/

theorem prefix_ofList (cs : List Char) : cs <+: (String.ofList cs).toList := by
  rw [String.toList_ofList]

theorem prefix_append {cs : List Char} {s : String} (h : cs <+: s.toList) (t : String) :
    cs <+: (s ++ t).toList := by
  rw [String.toList_append]
  exact h.trans (List.prefix_append _ _)

theorem prefix_then {cs cs' : List Char} {s : String} (h : cs' <+: s.toList) :
    cs ++ cs' <+: (String.ofList cs ++ s).toList := by
  rw [String.toList_append, String.toList_ofList]
  exact (List.prefix_append_right_inj cs).mpr h

/-- How the messages of faults for loop control start, and no others. -/
def loopControlStarts : List (List Char) :=
  ["RuntimeFault: 'b".toList, "ImportFault: 'b".toList]

theorem Cause.isLoopControl_of_start {cause : Cause} {start : List Char}
    (hstart : start ∈ loopControlStarts)
    (h : start <+: (cause.kind ++ (": " ++ cause.message)).toList) :
    cause.isLoopControl = true := by
  have conflict {cs : List Char} (hcs : cs <+: (cause.kind ++ (": " ++ cause.message)).toList)
      (apart : ∀ start ∈ loopControlStarts, ¬ (start <+: cs ∨ cs <+: start)) :
      cause.isLoopControl = true :=
    absurd (List.prefix_or_prefix_of_prefix h hcs) (apart start hstart)
  cases cause with
  | loopControlInModule _ | loopControlInCall _ | loopControlAtTop => rfl
  | undefinedVariable | undefinedFunction | undefinedClass | undefinedMember | undefinedInterface
  | notImplemented | argumentCount | textOperand | valueOperand =>
    -- the kind is another
    exact conflict (prefix_append (prefix_ofList _) _) (by decide)
  | moduleNotFound | circularImport | classExists | unknownOperator =>
    exact conflict (prefix_then (prefix_then (prefix_append (prefix_ofList _) _))) (by decide)
  | accessOnNonObject | assignmentOnNonObject =>
    exact conflict (prefix_then (prefix_then (prefix_append (prefix_append (prefix_append
      (prefix_ofList _) _) _) _))) (by decide)
  | notAMethod | noBaseClass =>
    exact conflict (prefix_then (prefix_then (prefix_append (prefix_append
      (prefix_ofList _) _) _))) (by decide)
  | superOutsideMethod =>
    exact conflict (prefix_then (prefix_then (prefix_ofList _))) (by decide)

end Wording

/-- The report says that loop control was outside of a loop. -/
def Report.BlamesLoopControl (r : Report) : Prop :=
  r.kind = some .fault ∧ ∃ kind ∈ ["RuntimeFault", "ImportFault"], ∃ rest,
    r.message = some (kind ++ ": 'break' or 'continue' outside of a loop" ++ rest)

theorem Report.not_blames_of_shows {r : Report}
    (h : r.Shows (wellPlaced.Allows fun _ _ => True)) : ¬ r.BlamesLoopControl := by
  rintro ⟨hfault, kind, hkind, rest, hmessage⟩
  rcases h with ⟨output, v, rfl⟩ | ⟨output, source, stop, rfl, allowed⟩
  · cases hfault
  · cases stop with
    | fault f =>
      have text : f.cause.kind ++ (": " ++ f.cause.message) =
          kind ++ ": 'break' or 'continue' outside of a loop" ++ rest := by
        rw [← String.append_assoc]
        exact Option.some.inj hmessage
      have control : f.cause.isLoopControl = true := by
        rcases List.mem_pair.mp hkind with rfl | rfl
        · have start : "RuntimeFault: 'b".toList ∈ loopControlStarts := by decide
          apply Cause.isLoopControl_of_start start
          rw [text]
          exact prefix_append (by decide) rest
        · have start : "ImportFault: 'b".toList ∈ loopControlStarts := by decide
          apply Cause.isLoopControl_of_start start
          rw [text]
          exact prefix_append (by decide) rest
      rw [allowed.1] at control
      cases control
    | malformed e => cases e <;> cases hfault
    | _ => cases hfault

/-- If the event is an import about to be executed, then the module is well placed. -/
def Event.ImportsPlaced (env : Environment) (ev : Event) : Prop :=
  ∀ module line path text p, ev.moment = .executing (.importModule module line) →
    modulePath? env module = some path → env.files.readText? path = some text →
    parseSource env.syntaxDepth text = .ok p → p.placed = true

namespace Session

/-- To run the source in this session is to run well placed code: its own, if it has a tree, and
that of every module that it imports on the way. -/
structure RunsPlaced (s : Session) (debug : Bool) (source : String) : Prop where
  code : ∀ p, parseSource s.limits.syntaxDepth source = .ok p → p.placed = true
  imports : ∀ events, s.Passes debug source events →
    ∀ ev ∈ events, ev.ImportsPlaced (s.environment debug)

/-- A session that has come from its start by runs of well placed code. Between two runs the module
files, the place they are looked up in and the limits may change. -/
inductive Placed : Session → Prop
  | start (files : Files) (directory : Option String) (captures : Bool) (input : String) :
    Placed (start files directory captures input)
  | change {s : Session} (files : Files) (directory : Option String) (captures : Bool)
    (limits : Limits) : Placed s → Placed { s with files, directory, captures, limits }
  | run {s : Session} {debug : Bool} {source : String} :
    Placed s → s.RunsPlaced debug source → Placed (s.run debug source).2

theorem RunsPlaced.runsCode {s : Session} {debug : Bool} {source : String}
    (h : s.RunsPlaced debug source) : s.RunsCode wellPlaced debug source := by
  constructor
  · exact fun p hp => Stmt.placedAll_iff.mp (h.code p hp)
  · intro events passes ev hev module line path text p hmoment hpath htext hparse
    exact Stmt.placedAll_iff.mp
      (h.imports events passes ev hev module line path text p hmoment hpath htext hparse)

theorem RunsPlaced.obeys {s : Session} {debug : Bool} {source : String}
    (h : s.RunsPlaced debug source) (stores : s.context.Stores wellPlaced) :
    (s.run debug source).2.context.Stores wellPlaced ∧
      (s.run debug source).1.Shows (wellPlaced.Allows fun _ _ => True) := by
  obtain ⟨stored, events, _, shows, _⟩ := run_obeys stores h.runsCode.code h.runsCode.imports
  exact ⟨stored, shows.mono fun _ allowed => allowed.mono fun _ _ _ => trivial⟩

theorem Placed.kept {s : Session} (h : s.Placed) : s.Kept wellPlaced := by
  induction h with
  | start files directory captures input => exact .start files directory captures input
  | change files directory captures limits _ ih => exact ih.change files directory captures limits
  | run _ placed ih => exact ih.run placed.runsCode

/-- All the code that such a session stores is well placed. -/
theorem Placed.stores {s : Session} (h : s.Placed) : s.context.Stores wellPlaced :=
  h.kept.stores

end Session

/-- A loop statement. -/
def Stmt.isLoop : Stmt → Bool
  | .whileLoop .. | .forLoop .. => true
  | _ => false

/-- A round may end with loop control, the loop does not: by induction on the rounds. -/
theorem loop_not_control {condition : Run Bool} {body : Run Outcome} {after : Run Unit}
    {bound : Nat} {c : Context} {outcome : Outcome}
    (h : (loop condition body after bound c).1 = .ok outcome) : outcome.isLoopControl = false := by
  induction bound generalizing c with
  | zero => cases h
  | succ bound ih =>
    have again {d : Context} (h : ((after >>= fun _ => loop condition body after bound) d).1 =
        .ok outcome) : outcome.isLoopControl = false := by
      rw [Run.bind_apply] at h
      rcases ha : after d with ⟨_ | _, d'⟩
      · rw [ha] at h
        cases h
      · rw [ha] at h
        exact ih h
    rw [loop, Run.bind_apply] at h
    rcases hc : condition c with ⟨_ | (_ | _), c₁⟩
    · rw [hc] at h
      cases h
    · rw [hc] at h
      cases h
      rfl
    · rw [hc] at h
      dsimp only at h
      rw [if_pos rfl, Run.bind_apply] at h
      rcases hb : body c₁ with ⟨_ | round, c₂⟩
      · rw [hb] at h
        cases h
      · rw [hb] at h
        cases round with
        | normal => exact again h
        | continuing => exact again h
        | returning v =>
          cases h
          rfl
        | breaking =>
          cases h
          rfl

/-- On any budget and from any context a loop that has an outcome ends without loop control. -/
theorem exec_loop_not_control {env : Environment} {n : Nat} {s : Stmt} {c : Context}
    {outcome : Outcome} (hs : s.isLoop = true) (h : (exec env n s c).1 = .ok outcome) :
    outcome.isLoopControl = false := by
  cases n with
  | zero => cases h
  | succ n =>
    have step : (execStep env (evaluators env n) s c).1 = .ok outcome := by
      rw [exec_succ, Run.atLine, Run.mapStop_eq] at h
      dsimp only at h
      cases hr : (execStep env (evaluators env n) s c).1 with
      | error stop =>
        rw [hr] at h
        cases h
      | ok outcome' =>
        rw [hr] at h
        exact h
    cases s with
    | whileLoop condition body line => exact loop_not_control step
    | forLoop initializer condition iterator body line =>
      rw [execStep, Run.bind_apply] at step
      rcases hi : execSimple env (evaluators env n) initializer c with ⟨_ | _, c'⟩
      · rw [hi] at step
        cases step
      · rw [hi] at step
        exact loop_not_control step
    | _ => cases hs

/-- In a session that has run well placed code only, functions and methods of earlier runs and
modules included, a run of well placed code is never reported for loop control outside of a loop.
And in general the execution of a loop, on any budget and from any context, never ends with loop
control. -/
theorem loop_control_stays_inside {s : Session} (hs : s.Placed) {debug : Bool} {source : String}
    (placed : s.RunsPlaced debug source) :
    ¬ (s.run debug source).1.BlamesLoopControl ∧
    ∀ env n (loop : Stmt) c outcome, loop.isLoop = true → (exec env n loop c).1 = .ok outcome →
      outcome.isLoopControl = false := by
  constructor
  · exact Report.not_blames_of_shows (placed.obeys hs.stores).2
  · intro env n loop c outcome hloop h
    exact exec_loop_not_control hloop h

private def looping : Session :=
  Session.start ⟨"", [(["m.mycs"], .file "while (true) break;")]⟩ none true ""

/-- A run that imports a module with a loop and a `break` in its body. -/
theorem loop_control_stays_inside_module :
    looping.RunsPlaced false "import m;" ∧
    ¬ (looping.run false "import m;").1.BlamesLoopControl := by
  have outer : scan "import m;" = ⟨[⟨.keyword, "import", 1, 1⟩, ⟨.identifier, "m", 1, 8⟩,
      ⟨.separator, ";", 1, 9⟩], none⟩ := by decide +kernel
  have inner : scan "while (true) break;" = ⟨[⟨.keyword, "while", 1, 1⟩, ⟨.lparen, "(", 1, 7⟩,
      ⟨.keyword, "true", 1, 8⟩, ⟨.rparen, ")", 1, 12⟩, ⟨.keyword, "break", 1, 14⟩,
      ⟨.separator, ";", 1, 19⟩], none⟩ := by decide +kernel
  have placed : looping.RunsPlaced false "import m;" := by
    constructor
    · intro p hp
      rw [parseSource_of_tokenize (tokenize_of_scan outer)] at hp
      cases hp
      rfl
    · intro events _ ev _ module line path text p _ _ htext hp
      -- only one text can be read
      obtain ⟨raw, hraw, rfl⟩ := Files.mem_of_readText? htext
      cases List.mem_singleton.mp hraw
      have unchanged : String.ofList (Text.normalizeNewlines "while (true) break;".toList) =
          "while (true) break;" := by decide
      rw [unchanged, parseSource_of_tokenize (tokenize_of_scan inner)] at hp
      cases hp
      rfl
  constructor
  · exact placed
  · exact (loop_control_stays_inside (.start _ _ _ _) placed).1

end ClassScript
