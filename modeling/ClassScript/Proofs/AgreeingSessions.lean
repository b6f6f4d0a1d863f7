import ClassScript.Proofs.AgreeingRules

/-!
# Sessions that are the same up to a blur

Two sessions that have been the same up to a blur may run sources that are alike, over modules that
are alike. If the programs of these sources agree when they are executed, then the reports differ in
a blurred line at most, and the sessions are the same up to the blur again. Sources without a tree
are alike only if they are the same text, so their reports show the same excerpt.
-/

namespace ClassScript

variable {b : Blur}

namespace Report

/-- The report with its line blurred. -/
def blur (b : Blur) (r : Report) : Report :=
  { r with line := r.line.map b.line }

theorem blur_of_line (h : ∀ l, b.line l = l) (r : Report) : r.blur b = r := by
  rw [blur, funext h, Option.map_id']

theorem blur_ofStop (output : String) (source : Option String) {s t : Stop}
    (same : s.blur b = t.blur b) :
    (ofStop output source s).blur b = (ofStop output source t).blur b := by
  rcases Stop.eq_or_fault same with rfl | ⟨f, f', rfl, rfl⟩
  · rfl
  · exact congrArg (ofFault output) (Stop.fault.inj same)

end Report

namespace Session

/-- What a run makes of the way its code has ended. -/
def ended (s : Session) : Except Stop Outcome × Context → Report × Session
  | (.error stop, c) => (.ofStop (s.shownOutput c) none stop, s.keep c)
  | (.ok (.returning v), c) => (.success (s.shownOutput c) v, s.keep c)
  | (.ok _, c) => (.success (s.shownOutput c) .null, s.keep c)

theorem ended_snd (s : Session) (x : Except Stop Outcome × Context) :
    (s.ended x).2 = s.keep x.2 := by
  rcases x with ⟨_ | (_ | _ | _ | _), c⟩ <;> rfl

/-- A source is run by executing its tree, or refused for having none. -/
theorem run_eq (s : Session) (debug : Bool) (source : String) :
    s.run debug source = match parseLogged (s.environment debug) source s.fresh with
      | (.error stop, c) => (.ofStop (s.shownOutput c) (some source) stop, s.keep c)
      | (.ok p, c) => s.ended (execProgram (s.environment debug) s.limits.steps p c) := by
  rw [run]
  rcases parseLogged (s.environment debug) source s.fresh with ⟨stop | p, c⟩
  · rfl
  · dsimp only
    rcases execProgram (s.environment debug) s.limits.steps p c with ⟨_ | (_ | _ | _ | _), d⟩ <;>
      rfl

/-- Sessions that store the same up to the blur and differ in files at most. -/
structure SameUpTo (b : Blur) (s s' : Session) : Prop where
  directory : s.directory = s'.directory
  captures : s.captures = s'.captures
  limits : s.limits = s'.limits
  context : s.context.blur b = s'.context.blur b
  transcript : s.transcript = s'.transcript

/-- Files that are alike up to the blur wherever the session may find a module. -/
def ModulesAlike (b : Blur) (s s' : Session) : Prop :=
  ∀ {module : String} {path : List String},
    modulePath? (s.environment false) module = some path →
    Option.Rel (SourcesAlike b s.limits.syntaxDepth) (s.files.readText? path)
      (s'.files.readText? path)

/-- With one file each, all that can be read is alike if these two are. -/
theorem alike_of_single {depth : Nat} {text text' : String} (root : String) (path : List String)
    (unchanged : String.ofList (Text.normalizeNewlines text.toList) = text)
    (unchanged' : String.ofList (Text.normalizeNewlines text'.toList) = text')
    (alike : SourcesAlike b depth text text') (other : List String) :
    Option.Rel (SourcesAlike b depth)
      ((⟨root, [(path, .file text)]⟩ : Files).readText? other)
      ((⟨root, [(path, .file text')]⟩ : Files).readText? other) := by
  rw [Files.readText?_single, Files.readText?_single, unchanged, unchanged']
  by_cases h : other = path
  · rw [if_pos h, if_pos h]
    exact .some alike
  · rw [if_neg h, if_neg h]
    exact .none

/-- The same report up to the blur, and sessions that are the same up to it. -/
structure SameEnds (b : Blur) (x y : Report × Session) : Prop where
  report : x.1.blur b = y.1.blur b
  session : x.2.SameUpTo b y.2

/-- A run keeps a context and changes nothing else of the session. -/
theorem run_keeps (s : Session) (debug : Bool) (source : String) :
    ∃ c, (s.run debug source).2 = s.keep c := by
  rw [run_eq]
  rcases parseLogged (s.environment debug) source s.fresh with ⟨stop | p, c⟩
  · exact ⟨c, rfl⟩
  · exact ⟨_, s.ended_snd _⟩

namespace SameUpTo

variable {s s' : Session}

theorem fresh (same : s.SameUpTo b s') : s.fresh.blur b = s'.fresh.blur b :=
  congrArg (fun c : Context =>
    { c with frame := .top, output := "", log := if b.log then [] else [] }) same.context

theorem environment (same : s.SameUpTo b s') (unlogged : b.log = false)
    (modules : s.ModulesAlike b s') (debug : Bool) :
    (s.environment debug).Alike b (s'.environment debug) where
  directory := congrArg importDirectory same.directory
  callDepth := congrArg Limits.callDepth same.limits
  syntaxDepth := congrArg Limits.syntaxDepth same.limits
  debug := rfl
  modules hpath := modules hpath
  logged logged := by
    rw [unlogged] at logged
    cases logged

theorem shownOutput (same : s.SameUpTo b s') {c d : Context} (hcd : c.blur b = d.blur b) :
    s.shownOutput c = s'.shownOutput d := by
  rw [Session.shownOutput, Session.shownOutput, same.captures, Context.output_of_same hcd]

theorem keep (same : s.SameUpTo b s') {c d : Context} (hcd : c.blur b = d.blur b) :
    (s.keep c).SameUpTo b (s'.keep d) where
  directory := same.directory
  captures := same.captures
  limits := same.limits
  context := congrArg (fun c : Context => { c with frame := .top }) hcd
  transcript := by
    change s.transcript ++ c.output = s'.transcript ++ d.output
    rw [same.transcript, Context.output_of_same hcd]

theorem ended (same : s.SameUpTo b s') {x y : Except Stop Outcome × Context}
    (hend : EndAlike b Eq x.1 y.1) (hcd : x.2.blur b = y.2.blur b) :
    SameEnds b (s.ended x) (s'.ended y) := by
  have output := same.shownOutput hcd
  have kept : (s.ended x).2.SameUpTo b (s'.ended y).2 := by
    rw [ended_snd, ended_snd]
    exact same.keep hcd
  refine ⟨?_, kept⟩
  obtain ⟨r, c⟩ := x
  obtain ⟨r', d⟩ := y
  cases hend with
  | @ok outcome _ h =>
    cases h
    cases outcome <;> exact congrArg (fun o => (Report.success o _).blur b) output
  | @error stop stop' h =>
    change (Report.ofStop (s.shownOutput c) none stop).blur b =
      (Report.ofStop (s'.shownOutput d) none stop').blur b
    rw [output, Report.blur_ofStop _ _ h]

theorem parsed (same : s.SameUpTo b s') (unlogged : b.log = false) (modules : s.ModulesAlike b s')
    (debug : Bool) {source source' : String}
    (alike : SourcesAlike b s.limits.syntaxDepth source source') :
    EndAlike b (fun p p' => p.blur b = p'.blur b)
        (parseLogged (s.environment debug) source s.fresh).1
        (parseLogged (s'.environment debug) source' s'.fresh).1 ∧
      (parseLogged (s.environment debug) source s.fresh).2.blur b =
        (parseLogged (s'.environment debug) source' s'.fresh).2.blur b :=
  agree_parseLogged (same.environment unlogged modules debug) alike (by rw [unlogged]; nofun) _ _
    same.fresh

/-- Sources that are alike are run alike if their programs agree. -/
theorem run (same : s.SameUpTo b s') (unlogged : b.log = false) (modules : s.ModulesAlike b s')
    (debug : Bool) {source source' : String}
    (alike : SourcesAlike b s.limits.syntaxDepth source source')
    (agree : ∀ p p' c d, parseLogged (s.environment debug) source s.fresh = (.ok p, c) →
      parseLogged (s'.environment debug) source' s'.fresh = (.ok p', d) →
      p.blur b = p'.blur b → c.blur b = d.blur b →
      EndAlike b Eq (execProgram (s.environment debug) s.limits.steps p c).1
          (execProgram (s'.environment debug) s'.limits.steps p' d).1 ∧
        (execProgram (s.environment debug) s.limits.steps p c).2.blur b =
          (execProgram (s'.environment debug) s'.limits.steps p' d).2.blur b) :
    SameEnds b (s.run debug source) (s'.run debug source') := by
  obtain ⟨hend, hcd⟩ := same.parsed unlogged modules debug alike
  rw [run_eq, run_eq]
  rcases hc : parseLogged (s.environment debug) source s.fresh with ⟨r, c⟩
  rcases hd : parseLogged (s'.environment debug) source' s'.fresh with ⟨r', d⟩
  rw [hc, hd] at hend hcd
  cases hend with
  | ok trees =>
    obtain ⟨hends, hctx⟩ := agree _ _ _ _ hc hd trees hcd
    exact same.ended hends hctx
  | @error stop stop' h =>
    cases alike with
    | same =>
      refine ⟨?_, same.keep hcd⟩
      dsimp only
      rw [same.shownOutput hcd, Report.blur_ofStop _ _ h]
    | trees hp =>
      obtain ⟨ts, hts, hparsed⟩ := parseSource_eq_ok hp
      have depth : (s.environment debug).syntaxDepth = s.limits.syntaxDepth := rfl
      rw [parseLogged_apply _ hts, depth, hparsed] at hc
      cases hc

end SameUpTo

end Session

end ClassScript
