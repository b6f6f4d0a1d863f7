import ClassScript.Proofs.History
import ClassScript.Proofs.ImportInlining
import Mathlib.Data.List.Chain
import Mathlib.Data.List.Nodup
import Mathlib.Data.List.Perm.Subperm

/-!
# Circular imports

The import graph has an edge from a module to each module that its source imports. Sources with
nothing but imports and assignments of literals walk this graph depth first, and walk it again
wherever a module is imported again. Such a run is refused exactly if a module on a cycle can be
reached from the main source, and the refusal shows a path of imports that has just come back to
itself. Otherwise the run succeeds, so it always ends: the modules being imported are different
files, and there are only so many.
-/

namespace ClassScript

open Relation (ReflTransGen TransGen)

/-- An expression that is written as its value. -/
def Expr.isLiteral : Expr → Bool
  | .number .. | .text .. | .boolean .. | .null _ => true
  | _ => false

/-- An import, or the assignment of a literal to a name. -/
def Stmt.isPlain : Stmt → Bool
  | .importModule .. => true
  | .simple (.assign _ value _) => value.isLiteral
  | _ => false

def Stmt.imported : Stmt → List String
  | .importModule module _ => [module]
  | _ => []

namespace Program

def isPlain (p : Program) : Bool :=
  p.statements.all Stmt.isPlain

/-- The modules that a source imports, in the order of its statements. -/
def imported (p : Program) : List String :=
  p.statements.flatMap Stmt.imported

end Program

/-- The last name of a path stays the last one, unless it leaves its directory. -/
theorem Files.normalize?_concat {directory path : List String} {name : String}
    (hname : name ≠ "..") (h : normalize? (directory ++ [name]) = some path) :
    ∃ outer, path = outer ++ [name] := by
  rw [normalize?, List.foldl_append] at h
  cases habove : directory.foldl stepUp (some []) with
  | none =>
    rw [habove] at h
    cases h
  | some above =>
    have step : stepUp (some above) name = some (name :: above) :=
      if_neg fun heq => hname (eq_of_beq heq)
    rw [habove, List.foldl_cons, List.foldl_nil, step] at h
    cases h
    exact ⟨above.reverse, List.reverse_cons⟩

/-- Modules of different names are looked up in different files. -/
theorem modulePath?_injective {env : Environment} {m m' : String} {path : List String}
    (h : modulePath? env m = some path) (h' : modulePath? env m' = some path) : m = m' := by
  have named (m : String) : m ++ extension ≠ ".." := by
    intro heq
    have lengths := congrArg String.length heq
    rw [String.length_append] at lengths
    have long : extension.length = 5 := rfl
    have short : "..".length = 2 := rfl
    omega
  obtain ⟨directory, hd, h⟩ := Option.bind_eq_some_iff.mp h
  obtain ⟨directory', hd', h'⟩ := Option.bind_eq_some_iff.mp h'
  obtain ⟨outer, rfl⟩ := Files.normalize?_concat (named m) h
  obtain ⟨outer', heq⟩ := Files.normalize?_concat (named m') h'
  have files : m ++ extension = m' ++ extension :=
    List.singleton_inj.mp (List.append_inj_right' heq rfl)
  apply String.toList_injective
  have texts := congrArg String.toList files
  rw [String.toList_append, String.toList_append] at texts
  exact List.append_cancel_right texts

namespace Environment

variable (env : Environment) (p : Program)

/-- The tree of a module that is present and has one. -/
def moduleTree (m : String) : Option Program := do
  let path ← modulePath? env m
  let text ← env.files.readText? path
  (parseSource env.syntaxDepth text).toOption

/-- An edge of the import graph. -/
def Imports (m m' : String) : Prop :=
  ∃ q, env.moduleTree m = some q ∧ m' ∈ q.imported

/-- The module can be reached from the imports of the main source. -/
def Reaches (m : String) : Prop :=
  ∃ first ∈ p.imported, ReflTransGen env.Imports first m

/-- A module that can be reached lies on a cycle. -/
def Circular : Prop :=
  ∃ m, env.Reaches p m ∧ TransGen env.Imports m m

/-- The main source and the modules it can reach are all present and plain. -/
structure PlainGraph : Prop where
  main : p.isPlain = true
  modules : ∀ m, env.Reaches p m → ∃ q, env.moduleTree m = some q ∧ q.isPlain = true

/-- A path of imports from the main source that has come back to one of its modules and repeats no
other. -/
structure Lasso (chain : List String) : Prop where
  starts : ∃ first ∈ p.imported, chain.head? = some first
  steps : chain.IsChain env.Imports
  closes : ∃ path last, chain = path ++ [last] ∧ path.Nodup ∧ last ∈ path

/-- Nothing that can be reached from the module is among the names or lies on a cycle. -/
def Clear (names : List String) (m : String) : Prop :=
  ∀ m', ReflTransGen env.Imports m m' → m' ∉ names ∧ ¬ TransGen env.Imports m' m'

/-- The modules being imported, innermost first, while the statements of a tree are executed. -/
inductive Importing : List ModuleRef → Program → Prop
  | main : Importing [] p
  | enter {stack : List ModuleRef} {q q' : Program} {m : String} {path : List String} :
    Importing stack q → m ∈ q.imported → modulePath? env m = some path →
    env.moduleTree m = some q' → (∀ r ∈ stack, r.path ≠ path) → Importing (⟨m, path⟩ :: stack) q'

variable {env p}

theorem moduleTree_eq_some {m : String} {q : Program} :
    env.moduleTree m = some q ↔ ∃ path text, modulePath? env m = some path ∧
      env.files.readText? path = some text ∧ parseSource env.syntaxDepth text = .ok q := by
  constructor
  · intro h
    obtain ⟨path, hpath, h⟩ := Option.bind_eq_some_iff.mp h
    obtain ⟨text, htext, h⟩ := Option.bind_eq_some_iff.mp h
    cases hparse : parseSource env.syntaxDepth text with
    | error e =>
      rw [hparse] at h
      cases h
    | ok q' =>
      rw [hparse] at h
      cases h
      exact ⟨path, text, hpath, htext, hparse⟩
  · rintro ⟨path, text, hpath, htext, hparse⟩
    apply Option.bind_eq_some_iff.mpr ⟨path, hpath, _⟩
    apply Option.bind_eq_some_iff.mpr ⟨text, htext, _⟩
    rw [hparse]
    rfl

theorem Reaches.step {m m' : String} (h : env.Reaches p m) (edge : env.Imports m m') :
    env.Reaches p m' := by
  obtain ⟨first, hfirst, path⟩ := h
  exact ⟨first, hfirst, path.tail edge⟩

theorem exists_head_concat (l : List String) (y : String) : ∃ x, (l ++ [y]).head? = some x := by
  cases l with
  | nil => exact ⟨y, rfl⟩
  | cons x l => exact ⟨x, rfl⟩

/-- A chain leads from its first member to its last. -/
theorem reflTransGen_of_isChain {R : String → String → Prop} {l : List String} {x y : String}
    (chain : (l ++ [y]).IsChain R) (head : (l ++ [y]).head? = some x) : ReflTransGen R x y := by
  induction l generalizing x with
  | nil =>
    cases head
    exact .refl
  | cons a l ih =>
    cases head
    obtain ⟨edge, rest⟩ := List.isChain_cons.mp chain
    obtain ⟨next, hnext⟩ := exists_head_concat l y
    exact .head (edge next hnext) (ih rest hnext)

/-- A lasso shows a cycle that can be reached. -/
theorem Lasso.circular {chain : List String} (h : env.Lasso p chain) : env.Circular p := by
  obtain ⟨first, hfirst, hhead⟩ := h.starts
  obtain ⟨path, last, rfl, _, hlast⟩ := h.closes
  obtain ⟨before, after, rfl⟩ := List.append_of_mem hlast
  have steps := h.steps
  have parts : before ++ last :: after ++ [last] = (before ++ [last]) ++ (after ++ [last]) := by
    simp only [List.append_assoc, List.cons_append, List.nil_append]
  rw [parts] at steps hhead
  have head : (before ++ [last]).head? = some first := by
    rw [List.head?_append_of_ne_nil _ (List.concat_ne_nil _ _)] at hhead
    exact hhead
  have round : (last :: (after ++ [last])).IsChain env.Imports := by
    rw [List.append_assoc] at steps
    exact steps.right_of_append
  obtain ⟨edge, back⟩ := List.isChain_cons.mp round
  obtain ⟨next, hnext⟩ := exists_head_concat after last
  refine ⟨last, ⟨first, hfirst, reflTransGen_of_isChain steps.left_of_append head⟩, ?_⟩
  exact .head' (edge next hnext) (reflTransGen_of_isChain back hnext)

namespace Importing

variable {stack : List ModuleRef} {q : Program}

theorem reaches (h : env.Importing p stack q) : ∀ m ∈ q.imported, env.Reaches p m := by
  induction h with
  | main =>
    intro m hm
    exact ⟨m, hm, .refl⟩
  | enter _ hm _ tree _ ih =>
    intro m' hm'
    apply (ih _ hm).step
    exact ⟨_, tree, hm'⟩

theorem isPlain (h : env.Importing p stack q) (plain : env.PlainGraph p) : q.isPlain = true := by
  cases h with
  | main => exact plain.main
  | enter h hm _ tree _ =>
    obtain ⟨q', tree', hplain⟩ := plain.modules _ (h.reaches _ hm)
    rw [tree] at tree'
    cases tree'
    exact hplain

theorem modulePath_of_mem (h : env.Importing p stack q) :
    ∀ r ∈ stack, modulePath? env r.name = some r.path := by
  induction h with
  | main =>
    intro r hr
    cases hr
  | enter _ _ hpath _ _ ih =>
    intro r hr
    rcases List.mem_cons.mp hr with rfl | hr
    · exact hpath
    · exact ih r hr

theorem nodup_path (h : env.Importing p stack q) : (stack.map ModuleRef.path).Nodup := by
  induction h with
  | main => exact List.nodup_nil
  | enter _ _ _ _ fresh ih =>
    apply List.nodup_cons.mpr
    constructor
    · intro hmem
      obtain ⟨r, hr, hpath⟩ := List.mem_map.mp hmem
      exact fresh r hr hpath
    · exact ih

/-- A module is among those being imported if its file is. -/
theorem mem_names (h : env.Importing p stack q) {m : String} {path : List String}
    (hpath : modulePath? env m = some path) :
    m ∈ stack.map ModuleRef.name ↔ ∃ r ∈ stack, r.path = path := by
  constructor
  · intro hmem
    obtain ⟨r, hr, rfl⟩ := List.mem_map.mp hmem
    have hr' := h.modulePath_of_mem r hr
    rw [hpath] at hr'
    exact ⟨r, hr, (Option.some.inj hr').symm⟩
  · rintro ⟨r, hr, rfl⟩
    have same := modulePath?_injective (h.modulePath_of_mem r hr) hpath
    exact List.mem_map.mpr ⟨r, hr, same⟩

theorem nodup_name (h : env.Importing p stack q) : (stack.map ModuleRef.name).Nodup := by
  induction h with
  | main => exact List.nodup_nil
  | enter h _ hpath _ fresh ih =>
    apply List.nodup_cons.mpr
    constructor
    · intro hmem
      obtain ⟨r, hr, hrpath⟩ := (h.mem_names hpath).mp hmem
      exact fresh r hr hrpath
    · exact ih

/-- Each of the modules being imported is a file of its own. -/
theorem length_le (h : env.Importing p stack q) : stack.length ≤ env.files.entries.length := by
  have files : stack.map ModuleRef.path ⊆ env.files.entries.map Prod.fst := by
    induction h with
    | main => exact List.nil_subset _
    | enter _ _ hpath tree _ ih =>
      obtain ⟨path', text, hpath', htext, _⟩ := moduleTree_eq_some.mp tree
      rw [hpath] at hpath'
      cases hpath'
      obtain ⟨raw, hraw, _⟩ := Files.mem_of_readText? htext
      exact List.cons_subset.mpr ⟨List.mem_map_of_mem hraw, ih⟩
  have bound := (List.subperm_of_subset h.nodup_path files).length_le
  rwa [List.length_map, List.length_map] at bound

/-- Read from the inside out, every module was imported by the next one. -/
theorem isChain (h : env.Importing p stack q) : ∀ m ∈ q.imported,
    (m :: stack.map ModuleRef.name).IsChain (fun a b => env.Imports b a) ∧
    ∃ first ∈ p.imported, (m :: stack.map ModuleRef.name).getLast? = some first := by
  induction h with
  | main =>
    intro m hm
    exact ⟨List.isChain_singleton m, m, hm, rfl⟩
  | @enter stack q q' m path _ hm _ tree _ ih =>
    intro m' hm'
    obtain ⟨chain, first, hfirst, hlast⟩ := ih m hm
    constructor
    · exact List.isChain_cons_cons.mpr ⟨⟨q', tree, hm'⟩, chain⟩
    · refine ⟨first, hfirst, ?_⟩
      rw [List.map_cons, List.getLast?_cons_cons]
      exact hlast

/-- The chain of a refused import is a lasso. -/
theorem lasso (h : env.Importing p stack q) {m : String} (hm : m ∈ q.imported)
    {path : List String} (hpath : modulePath? env m = some path)
    (busy : ∃ r ∈ stack, r.path = path) : env.Lasso p (importChain stack ⟨m, path⟩) := by
  obtain ⟨chain, first, hfirst, hlast⟩ := h.isChain m hm
  constructor
  · refine ⟨first, hfirst, ?_⟩
    rw [importChain, List.head?_reverse]
    exact hlast
  · rw [importChain, List.isChain_reverse]
    exact chain
  · refine ⟨(stack.map ModuleRef.name).reverse, m, ?_, ?_, ?_⟩
    · rw [importChain, List.map_cons, List.reverse_cons]
    · exact List.nodup_reverse.mpr h.nodup_name
    · exact List.mem_reverse.mpr ((h.mem_names hpath).mpr busy)

end Importing

end Environment

/-- How statements end that import these modules: either nothing that the modules can reach is being
imported or lies on a cycle, or a lasso is reported. -/
inductive ImportsEnd (env : Environment) (p : Program) (c : Context) (modules : List String) :
    Except Stop Outcome × Context → Prop
  | normal {d : Context} (imports : d.frame.imports = c.frame.imports)
    (output : d.output = c.output)
    (clear : ∀ m ∈ modules, env.Clear (c.frame.imports.map ModuleRef.name) m) :
    ImportsEnd env p c modules (.ok .normal, d)
  | circular {d : Context} {f : Fault} {chain : List String}
    (cause : f.cause = .circularImport chain) (lasso : env.Lasso p chain) :
    ImportsEnd env p c modules (.error (.fault f), d)

section Walk

variable {env : Environment} {p : Program}

/-- Statements one after the other import the modules of all of them. -/
theorem ImportsEnd.execAll {k : Evaluators} {stack : List ModuleRef} {ss : List Stmt}
    (each : ∀ s ∈ ss, ∀ c : Context, c.frame.imports = stack →
      ImportsEnd env p c s.imported (k.exec s c))
    {c : Context} (hc : c.frame.imports = stack) :
    ImportsEnd env p c (ss.flatMap Stmt.imported) (k.execAll ss c) := by
  induction ss generalizing c with
  | nil =>
    apply ImportsEnd.normal rfl rfl
    intro m hm
    cases hm
  | cons s ss ih =>
    have first := each s List.mem_cons_self c hc
    rw [Evaluators.execAll, Run.bind_apply]
    rcases hs : k.exec s c with ⟨r, d⟩
    rw [hs] at first
    cases first with
    | circular cause lasso => exact .circular cause lasso
    | normal imports output clear =>
      have rest := ih (fun t ht => each t (List.mem_cons_of_mem s ht)) (imports.trans hc)
      dsimp only
      rcases hss : k.execAll ss d with ⟨r', d'⟩
      rw [hss] at rest
      cases rest with
      | circular cause lasso => exact .circular cause lasso
      | normal imports' output' clear' =>
        apply ImportsEnd.normal (imports'.trans imports) (output'.trans output)
        intro m hm
        rw [List.flatMap_cons] at hm
        rcases List.mem_append.mp hm with hm | hm
        · exact clear m hm
        · exact imports ▸ clear' m hm

end Walk

end ClassScript
