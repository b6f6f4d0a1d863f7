import ClassScript.ClassTable.Graph
import ClassScript.Proofs.ClassDeclarations
import ClassScript.Proofs.Instantiation

/-!
# The class graph resolves names as the table does

A class keeps one member for each name, in the order in which the names are first declared, and a
later declaration may turn a field into a method at its place. The graph lists the fields and the
methods of a class apart. What is lost by that is the order between the two lists and nothing that
resolving a name needs: the nearest class that lists the name as a field, else the nearest that
lists it as a method, is the owner in the table.

Names are resolved on the graph as it is handed out, from indices and names alone.
-/

namespace ClassScript

/-- A class declaration as it stands in a source. -/
structure Declaration where
  name : String
  base : Option String
  interfaces : List String
  members : List Member

namespace Declaration

/-- The members that count: one for each name, in the order of the first declarations, and of the
declarations of one name the last. -/
def kept (d : Declaration) : List Member :=
  (d.members.map Member.name).eraseDups.filterMap fun x =>
    d.members.reverse.find? fun m => m.name = x

/-- Declares the class. -/
def execute (d : Declaration) (env : Environment) (line : Nat) : Run Unit :=
  declareClass env d.name d.base d.interfaces d.members line

end Declaration

/-- The table is made by these declarations, in this order. In between others may have been refused,
and names resolved. -/
inductive ClassTable.Declared : ClassTable → List Declaration → Prop
  | empty : Declared .empty []
  | accepted {ds : List Declaration} {c c' : Context} {env : Environment} {line : Nat}
    (d : Declaration) : Declared c.classes ds → d.execute env line c = (.ok (), c') →
    Declared c'.classes (ds ++ [d])
  | refused {ds : List Declaration} {c c' : Context} {env : Environment} {line : Nat} {stop : Stop}
    (d : Declaration) : Declared c.classes ds → d.execute env line c = (.error stop, c') →
    Declared c'.classes ds
  | resolved {ds : List Declaration} {t u : ClassTable} {i : Nat} {name : String} {r : Resolution} :
    Declared t ds → t.resolve? i name = some (r, u) → Declared u ds

namespace Data

/-- What a map has at a key. -/
def get? (d : Data) (key : String) : Option Data :=
  match d with
  | .map entries => Bindings.find key entries
  | _ => none

def items : Data → List Data
  | .list items => items
  | _ => []

/-- The name of a member. -/
def name? (member : Data) : Option String :=
  match member.get? "name" with
  | some (.text name) => some name
  | _ => none

/-- The names of the members that the entry of a class lists at a key. -/
def memberNames (entry : Data) (key : String) : List String :=
  ((entry.get? key).map items).getD [] |>.filterMap name?

/-- Whether entry `i` of a graph lists the name at the key. -/
def declares (graph : Data) (key name : String) (i : Nat) : Bool :=
  match graph.items[i]? with
  | some entry => (entry.memberNames key).contains name
  | none => false

/-- Follows the base indices of a graph from `i` for at most `fuel` entries. -/
def baseChain (graph : Data) : Nat → Nat → Option (List Nat)
  | 0, _ => none
  | fuel + 1, i =>
    match graph.items[i]?.bind fun entry => entry.get? "base" with
    | some .null => some [i]
    | some (.int (.ofNat base)) => (baseChain graph fuel base).map (i :: ·)
    | _ => none

/-- What a name means on class `i`, by the graph alone: the nearest entry that lists it as a field,
else the nearest that lists it as a method. -/
def resolveName (graph : Data) (i : Nat) (name : String) : Option (Option (Bool × Nat)) :=
  (graph.baseChain graph.items.length i).map fun chain =>
    ((chain.find? (graph.declares "fields" name)).map (true, ·)).or
      ((chain.find? (graph.declares "methods" name)).map (false, ·))

end Data

/-! ## Members -/

/-- Where no key is bound twice, the values are what the keys are bound to. -/
theorem Bindings.Distinct.values_eq {κ α : Type} [DecidableEq κ] {b : Bindings κ α}
    (h : b.Distinct) : b.values = b.keys.filterMap b.get? := by
  have bound : b.entries.filterMap (fun p => b.get? p.1) = b.entries.filterMap (some ∘ Prod.snd) :=
    List.filterMap_congr fun p hp => h.get?_of_mem hp
  rw [keys, List.filterMap_map, values, ← List.filterMap_eq_map]
  exact bound.symm

namespace ClassDef

variable {c : ClassDef}

/-- The members of one sort are the class's own answers for that sort. -/
theorem Listed.mem_names_iff (h : c.Listed) (sort : Member → Bool) (name : String) :
    name ∈ (c.members.values.filter sort).map Member.name ↔
      ((c.members.get? name).filter sort).isSome = true := by
  constructor
  · intro hname
    obtain ⟨m, hm, rfl⟩ := List.mem_map.mp hname
    obtain ⟨hm, hsort⟩ := List.mem_filter.mp hm
    obtain ⟨⟨key, _⟩, hentry, rfl⟩ := List.mem_map.mp hm
    rw [h.name_eq _ hentry, h.distinct.get?_of_mem hentry, Option.filter_some, if_pos hsort]
    rfl
  · intro hsome
    obtain ⟨m, hm⟩ := Option.isSome_iff_exists.mp hsome
    obtain ⟨hget, hsort⟩ := Option.filter_eq_some_iff.mp hm
    have hentry := Bindings.mem_of_find hget
    refine List.mem_map.mpr ⟨m, List.mem_filter.mpr ⟨?_, hsort⟩, h.name_eq _ hentry⟩
    exact Bindings.mem_values_of_get? hget

/-- Fields and methods together are the members, each once. -/
theorem names_perm (c : ClassDef) :
    (c.fieldNames ++ c.methodNames).Perm (c.members.values.map Member.name) := by
  have methods : c.methods = c.members.values.filter (fun m => !m.isField) :=
    List.filter_congr fun m _ => by cases m <;> rfl
  rw [fieldNames, methodNames, ← List.map_append, fields, methods]
  exact (List.filter_append_perm Member.isField c.members.values).map Member.name

end ClassDef

namespace Declaration

variable {d : Declaration} {c : ClassDef}

/-- The class is made by the declaration, with some base. -/
def Makes (d : Declaration) (c : ClassDef) : Prop :=
  ∃ base, c = .ofMembers d.name base d.interfaces d.members

theorem Makes.listed (h : d.Makes c) : c.Listed := by
  obtain ⟨base, rfl⟩ := h
  exact ClassDef.listed_ofMembers ..

theorem Makes.keys_eq (h : d.Makes c) :
    c.members.keys = (d.members.map Member.name).eraseDups := by
  obtain ⟨base, rfl⟩ := h
  rw [ClassDef.ofMembers, Bindings.keys_ofList, List.map_map]
  rfl

theorem Makes.get?_eq (h : d.Makes c) (x : String) :
    c.members.get? x = d.members.reverse.find? fun m => m.name = x := by
  obtain ⟨base, rfl⟩ := h
  rw [ClassDef.ofMembers, Bindings.get?_ofList, ← List.map_reverse]
  induction d.members.reverse with
  | nil => rfl
  | cons m ms ih =>
    rw [List.map_cons, Bindings.find, List.find?_cons, ih]
    by_cases hx : m.name = x <;> simp [hx]

/-- The class has the members that count, in that order. -/
theorem Makes.values_eq (h : d.Makes c) : c.members.values = d.kept := by
  rw [h.listed.distinct.values_eq, h.keys_eq, kept]
  exact List.filterMap_congr fun x _ => h.get?_eq x

end Declaration

namespace ClassTable

variable {t u : ClassTable} {ds : List Declaration}

/-- What is kept of a table whenever a class is declared or a name resolved. -/
structure MadeBy (t : ClassTable) (ds : List Declaration) : Prop where
  wellFormed : t.WellFormed
  classes : List.Forall₂ Declaration.Makes ds t.classes.toList

theorem MadeBy.of_recalls (h : t.MadeBy ds) (hu : t.Recalls u) : u.MadeBy ds :=
  ⟨hu.wellFormed, by rw [hu.classes]; exact h.classes⟩

theorem MadeBy.define (h : t.MadeBy ds) {d : Declaration} {base : Option Nat} {i : Nat}
    (hbase : ∀ b, base = some b → b < t.size)
    (hu : t.define (.ofMembers d.name base d.interfaces d.members) = .ok (i, u)) :
    u.MadeBy (ds ++ [d]) := by
  refine ⟨h.wellFormed.define hbase hu, ?_⟩
  obtain ⟨_, _, rfl⟩ := WellFormed.define_eq hu
  rw [Array.toList_push]
  exact List.rel_append h.classes (.cons ⟨base, rfl⟩ .nil)

/-- By induction on the way the table has come about. -/
theorem Declared.madeBy (h : t.Declared ds) : t.MadeBy ds := by
  induction h with
  | empty => exact ⟨.empty, .nil⟩
  | @accepted ds c c' env line d _ run ih =>
    rcases declareClass_cases env ih.wellFormed d.name d.base d.interfaces d.members line with
      ⟨cause, u, _, _, refused⟩ | ⟨u, v, log, _, _, hu, hv, accepted⟩
    · rw [Declaration.execute, refused] at run
      cases run
    · rw [Declaration.execute, accepted] at run
      cases run
      refine (ih.of_recalls hu).define (fun b hb => ?_) hv
      obtain ⟨x, _, hx⟩ := Option.bind_eq_some_iff.mp hb
      obtain ⟨e, he, _⟩ := (ih.wellFormed.index_iff x b).mp hx
      exact lt_size (hu.extends _ _ he)
  | @refused ds c c' env line stop d _ run ih =>
    rcases declareClass_cases env ih.wellFormed d.name d.base d.interfaces d.members line with
      ⟨cause, u, _, hu, refused⟩ | ⟨u, v, log, _, _, _, _, accepted⟩
    · rw [Declaration.execute, refused] at run
      cases run
      exact ih.of_recalls hu
    · rw [Declaration.execute, accepted] at run
      cases run
  | resolved _ hr ih =>
    obtain ⟨hu, _⟩ := ih.wellFormed.resolve? hr
    obtain ⟨classes, indices⟩ := WellFormed.resolve?_classes hr
    exact ih.of_recalls ⟨classes, indices, hu⟩

/-- Each declaration has made the class at its place. -/
theorem MadeBy.exists_class (h : t.MadeBy ds) {i : Nat} {d : Declaration} (hd : ds[i]? = some d) :
    ∃ c, t.classes[i]? = some c ∧ d.Makes c := by
  obtain ⟨hi, rfl⟩ := List.getElem?_eq_some_iff.mp hd
  obtain ⟨length, makes⟩ := List.forall₂_iff_get.mp h.classes
  have hi' : i < t.classes.toList.length := length ▸ hi
  refine ⟨t.classes.toList[i], ?_, makes i hi hi'⟩
  rw [← Array.getElem?_toList, List.getElem?_eq_getElem hi']

theorem MadeBy.listed (h : t.MadeBy ds) {i : Nat} {c : ClassDef} (hc : t.classes[i]? = some c) :
    c.Listed := by
  have hi : i < ds.length := by
    rw [h.classes.length_eq]
    exact lt_size hc
  obtain ⟨c', hc', makes⟩ := h.exists_class (List.getElem?_eq_getElem hi)
  rw [hc] at hc'
  cases hc'
  exact makes.listed

end ClassTable

/-! ## What the graph says of a table -/

theorem filterMap_name?_toData (ms : List Member) :
    (ms.map Member.toData).filterMap Data.name? = ms.map Member.name := by
  rw [List.filterMap_map, ← List.filterMap_eq_map]
  exact List.filterMap_congr fun m _ => by cases m <;> rfl

theorem ClassDef.memberNames_fields (c : ClassDef) (i : Nat) :
    (c.toData i).memberNames "fields" = c.fieldNames :=
  filterMap_name?_toData c.fields

theorem ClassDef.memberNames_methods (c : ClassDef) (i : Nat) :
    (c.toData i).memberNames "methods" = c.methodNames :=
  filterMap_name?_toData c.methods

namespace ClassTable

variable {t : ClassTable} {ds : List Declaration}

theorem items_graph (t : ClassTable) (i : Nat) :
    t.graph.items[i]? = t.classes[i]?.map fun c => c.toData i := by
  simp only [graph, Data.items, List.getElem?_map, List.getElem?_zipIdx, Array.getElem?_toList,
    Option.map_map, Nat.zero_add]
  rfl

theorem length_items_graph (t : ClassTable) : t.graph.items.length = t.size := by
  simp [graph, Data.items, size]

/-- Following the base indices of the graph is following the bases of the table. -/
theorem baseChain_graph (t : ClassTable) (fuel i : Nat) :
    t.graph.baseChain fuel i = t.chainFrom fuel i := by
  induction fuel generalizing i with
  | zero => rfl
  | succ fuel ih =>
    rw [Data.baseChain, chainFrom, items_graph]
    cases t.classes[i]? with
    | none => rfl
    | some c =>
      obtain ⟨name, base, interfaces, members⟩ := c
      cases base with
      | none => rfl
      | some b => exact congrArg (Option.map (i :: ·)) (ih b)

/-- The graph lists a name at a class when the class declares it as a member of that sort. -/
theorem MadeBy.declares_graph (h : t.MadeBy ds) (name : String) (i : Nat) :
    t.graph.declares "fields" name i = ((t.member? i name).filter Member.isField).isSome ∧
    t.graph.declares "methods" name i = ((t.member? i name).filter Member.isMethod).isSome := by
  rw [Data.declares, Data.declares, items_graph, member?]
  cases hc : t.classes[i]? with
  | none => exact ⟨rfl, rfl⟩
  | some c =>
    rw [Option.map_some, Option.bind_some]
    dsimp only
    rw [c.memberNames_fields, c.memberNames_methods]
    have listed := h.listed hc
    constructor
    · rw [Bool.eq_iff_iff, List.contains_iff_mem]
      exact listed.mem_names_iff Member.isField name
    · rw [Bool.eq_iff_iff, List.contains_iff_mem]
      exact listed.mem_names_iff Member.isMethod name

/-- The first class of a chain that passes a test is the owner of the nearest member, where the test
is to declare such a member. -/
theorem nearest?_eq_find? {sort : Member → Bool} {name : String} {test : Nat → Bool}
    (h : ∀ i, test i = ((t.member? i name).filter sort).isSome) (chain : List Nat) :
    (t.nearest? sort name chain).map Prod.fst = chain.find? test := by
  induction chain with
  | nil => rfl
  | cons i chain ih =>
    rw [nearest?_cons, List.find?_cons, h i]
    cases (t.member? i name).filter sort with
    | none => exact ih
    | some m => rfl

theorem kindAndOwner_resolveOn (t : ClassTable) (chain : List Nat) (name : String) :
    (t.resolveOn chain name).kindAndOwner =
      (((t.nearest? Member.isField name chain).map Prod.fst).map (true, ·)).or
        (((t.nearest? Member.isMethod name chain).map Prod.fst).map (false, ·)) := by
  rw [resolveOn]
  cases hfield : t.nearest? Member.isField name chain with
  | some found =>
    have sort := (nearest?_sound hfield).2.2
    simp [Resolution.ofOption, Resolution.kindAndOwner, sort]
  | none =>
    cases hmethod : t.nearest? Member.isMethod name chain with
    | none => rfl
    | some found =>
      obtain ⟨owner, m⟩ := found
      have sort := (nearest?_sound hmethod).2.2
      cases m with
      | field => cases sort
      | method => rfl

theorem MadeBy.resolveName_graph (h : t.MadeBy ds) (i : Nat) (name : String) :
    t.graph.resolveName i name =
      (t.resolve? i name).map fun answer => answer.1.kindAndOwner := by
  have answer : (t.resolve? i name).map (fun answer => answer.1.kindAndOwner) =
      (t.search? i name).map Resolution.kindAndOwner := by
    rw [← h.wellFormed.resolve?_fst, Option.map_map]
    rfl
  rw [answer, search?, chain?, Option.map_map, Data.resolveName, length_items_graph,
    baseChain_graph]
  congr 1
  funext chain
  rw [Function.comp_apply, kindAndOwner_resolveOn,
    nearest?_eq_find? fun i => (h.declares_graph name i).1,
    nearest?_eq_find? fun i => (h.declares_graph name i).2]

end ClassTable

/-- The graph of every table that class declarations make. Entry `i` is about class `i`, its base
is none or comes before it. It lists the members that count, fields and methods apart, in the order
of their declaration, each name once. And to resolve a name by the graph alone gives the sort of
member and the owner that the table gives, on every class and for every name. -/
theorem class_graph_faithful {t : ClassTable} {ds : List Declaration} (h : t.Declared ds) :
    t.graph.items.length = ds.length ∧
    (∀ (i : Nat) (d : Declaration), ds[i]? = some d →
      ∃ entry, t.graph.items[i]? = some entry ∧
        entry.get? "index" = some (.int i) ∧
        (entry.get? "base" = some .null ∨ ∃ b < i, entry.get? "base" = some (.int b)) ∧
        entry.get? "fields" = some (.list ((d.kept.filter Member.isField).map Member.toData)) ∧
        entry.get? "methods" = some (.list ((d.kept.filter Member.isMethod).map Member.toData)) ∧
        ∀ name, (entry.memberNames "fields" ++ entry.memberNames "methods").count name =
          if name ∈ d.members.map Member.name then 1 else 0) ∧
    ∀ i name, t.graph.resolveName i name =
      (t.resolve? i name).map fun answer => answer.1.kindAndOwner := by
  have made := h.madeBy
  refine ⟨?_, ?_, made.resolveName_graph⟩
  · rw [ClassTable.length_items_graph, made.classes.length_eq]
    rfl
  · intro i d hd
    obtain ⟨c, hc, makes⟩ := made.exists_class hd
    refine ⟨c.toData i, by rw [ClassTable.items_graph, hc]; rfl, rfl, ?_, ?_, ?_, ?_⟩
    · cases hb : c.base with
      | none => exact Or.inl (by rw [ClassDef.toData, hb]; rfl)
      | some b =>
        have hlt := made.wellFormed.base_lt i b ⟨c, hc, hb⟩
        exact Or.inr ⟨b, hlt, by rw [ClassDef.toData, hb]; rfl⟩
    · rw [← makes.values_eq]
      rfl
    · rw [← makes.values_eq]
      rfl
    · intro name
      rw [c.memberNames_fields, c.memberNames_methods, c.names_perm.count_eq, makes.listed.names_eq,
        List.Nodup.count makes.listed.distinct, makes.keys_eq]
      simp

/-- The second declaration of `x` turns a field into a method, at the place of the field. -/
private def redeclaring : Declaration :=
  ⟨"A", none, [], [.field "x" .publicAccess none 1, .field "y" .publicAccess none 2,
    .method "x" .publicAccess [] (.mk [] 3) false false 3]⟩

/-- A method that a field of the base hides, and a field that hides a method of the base. -/
private def shadowingBase : Declaration :=
  ⟨"B", some "A", [], [.method "y" .publicAccess [] (.mk [] 5) false false 5,
    .field "x" .publicAccess none 6]⟩

private def noImports : Environment := ⟨.ofList "" [], none, 1, 1, false⟩

private def withRedeclared : Context := (redeclaring.execute noImports 1 (Context.initial "")).2

private def baseAndDerived : ClassTable :=
  (shadowingBase.execute noImports 4 withRedeclared).2.classes

theorem class_graph_faithful_shadowing :
    baseAndDerived.Declared [redeclaring, shadowingBase] ∧
    redeclaring.kept.map Member.isMethod = [true, false] ∧
    (∃ entry, baseAndDerived.graph.items[0]? = some entry ∧
      (entry.memberNames "fields" ++ entry.memberNames "methods").count "x" = 1) ∧
    (baseAndDerived.resolve? 1 "y").map (fun answer => answer.1.kindAndOwner) =
      some (some (true, 0)) ∧
    (baseAndDerived.resolve? 1 "x").map (fun answer => answer.1.kindAndOwner) =
      some (some (true, 1)) := by
  have first : redeclaring.execute noImports 1 (Context.initial "") = (.ok (), withRedeclared) :=
    rfl
  have second : shadowingBase.execute noImports 4 withRedeclared =
      (.ok (), (shadowingBase.execute noImports 4 withRedeclared).2) := rfl
  have declared : baseAndDerived.Declared ([redeclaring] ++ [shadowingBase]) :=
    .accepted shadowingBase (.accepted redeclaring .empty first) second
  obtain ⟨_, entries, resolve⟩ := class_graph_faithful declared
  obtain ⟨entry, hentry, _, _, _, _, once⟩ := entries 0 redeclaring rfl
  refine ⟨declared, by decide, ⟨entry, hentry, once "x"⟩, ?_, ?_⟩
  · rw [← resolve 1 "y"]
    rfl
  · rw [← resolve 1 "x"]
    rfl

end ClassScript
