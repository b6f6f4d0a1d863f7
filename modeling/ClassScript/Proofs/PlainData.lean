import ClassScript.ClassTable.Graph

/-!
# Data that a format can give back

Floats are left out here, and so are maps in which a key is repeated. What texts and keys may hold
differs from format to format and is a parameter.

The class graph is such data, whatever the table holds: the keys of its maps are fixed, and its
texts are the names that occur in the table and the words for access. It nests no deeper than five,
down to the parameters of a method among the methods of a class.
-/

namespace ClassScript

namespace Data

/-- Data built from null, booleans, integers and texts by lists and by maps that bind no key twice,
with all texts and keys out of `words`. -/
inductive Over (words : String → Prop) : Data → Prop
  | null : Over words .null
  | boolean (b : Bool) : Over words (.boolean b)
  | int (n : Int) : Over words (.int n)
  | text {s : String} : words s → Over words (.text s)
  | list {items : List Data} : (∀ d ∈ items, Over words d) → Over words (.list items)
  | map {entries : List (String × Data)} : (entries.map Prod.fst).Nodup →
    (∀ e ∈ entries, words e.1) → (∀ e ∈ entries, Over words e.2) → Over words (.map entries)

theorem ofPairs_eq_map {entries : List (String × Data)} (h : (entries.map Prod.fst).Nodup) :
    ofPairs entries = .map entries := by
  rw [ofPairs, Bindings.entries_ofList h]

variable {n : Nat}

end Data

def Member.names : Member → List String
  | .field name _ _ _ => [name]
  | .method name _ params _ _ _ _ => name :: params

def ClassDef.names (c : ClassDef) : List String :=
  c.name :: (c.interfaces ++ c.members.values.flatMap Member.names)

/-- The names of the classes of a table, of their interfaces, members and parameters. -/
def ClassTable.names (t : ClassTable) : List String :=
  t.classes.toList.flatMap ClassDef.names

/-- The texts of a class graph that are no names. -/
def graphWords : List String :=
  ["index", "name", "base", "interfaces", "fields", "methods", "access", "initialized", "params",
   "virtual", "override", "public", "private", "protected"]

section Graph

variable {words : String → Prop}

theorem over_texts {names : List String} (h : ∀ x ∈ names, words x) :
    (Data.list (names.map .text)).Over words := by
  refine .list fun d hd => ?_
  obtain ⟨x, hx, rfl⟩ := List.mem_map.mp hd
  exact .text (h x hx)

variable (fixed : ∀ x ∈ graphWords, words x)

include fixed

/-- A map with fixed keys. -/
theorem over_map {entries : List (String × Data)} (hnodup : (entries.map Prod.fst).Nodup)
    (hkeys : ∀ k ∈ entries.map Prod.fst, k ∈ graphWords)
    (hvalues : ∀ d ∈ entries.map Prod.snd, d.Over words) : (Data.map entries).Over words := by
  refine .map hnodup (fun e he => ?_) fun e he => ?_
  · exact fixed e.1 (hkeys e.1 (List.mem_map_of_mem he))
  · exact hvalues e.2 (List.mem_map_of_mem he)

theorem over_access (a : Access) : (Data.text a.word).Over words := by
  cases a with
  | publicAccess => exact .text (fixed _ (by decide))
  | privateAccess => exact .text (fixed _ (by decide))
  | protectedAccess => exact .text (fixed _ (by decide))

theorem Member.over_toData (m : Member) (h : ∀ x ∈ m.names, words x) : m.toData.Over words := by
  cases m with
  | field name access initializer line =>
    refine over_map fixed (by simp) (by simp [graphWords]) ?_
    have hname : (Data.text name).Over words := .text (h name (by simp [names]))
    simp [hname, over_access fixed access, Data.Over.boolean]
  | method name access params body isVirtual isOverride line =>
    refine over_map fixed (by simp) (by simp [graphWords]) ?_
    have hname : (Data.text name).Over words := .text (h name (by simp [names]))
    have hparams := over_texts fun x (hx : x ∈ params) => h x (List.mem_cons_of_mem name hx)
    simp [hname, hparams, over_access fixed access, Data.Over.boolean]

theorem over_members {ms : List Member} (h : ∀ m ∈ ms, ∀ x ∈ m.names, words x) :
    (Data.list (ms.map Member.toData)).Over words := by
  refine .list fun d hd => ?_
  obtain ⟨m, hm, rfl⟩ := List.mem_map.mp hd
  exact m.over_toData fixed (h m hm)

theorem ClassDef.over_toData (c : ClassDef) (index : Nat) (h : ∀ x ∈ c.names, words x) :
    (c.toData index).Over words := by
  have hmembers : ∀ m ∈ c.members.values, ∀ x ∈ m.names, words x := by
    intro m hm x hx
    refine h x ?_
    rw [names, List.mem_cons, List.mem_append, List.mem_flatMap]
    exact Or.inr (Or.inr ⟨m, hm, hx⟩)
  have hname : (Data.text c.name).Over words := .text (h c.name (by simp [names]))
  have hinterfaces := over_texts fun x (hx : x ∈ c.interfaces) => h x (by simp [names, hx])
  have hfields := over_members fixed fun m (hm : m ∈ c.fields) =>
    hmembers m (List.mem_filter.mp hm).1
  have hmethods := over_members fixed fun m (hm : m ∈ c.methods) =>
    hmembers m (List.mem_filter.mp hm).1
  refine over_map fixed (by simp) (by simp [graphWords]) ?_
  simp only [List.map_cons, List.map_nil, List.forall_mem_cons]
  refine ⟨.int index, hname, ?_, hinterfaces, hfields, hmethods, by simp⟩
  cases c.base with
  | none => exact .null
  | some base => exact .int base

/-- The class graph of any table is data over the names that occur in it. -/
theorem ClassTable.over_graph (t : ClassTable) (h : ∀ x ∈ t.names, words x) :
    t.graph.Over words := by
  refine .list fun d hd => ?_
  obtain ⟨⟨c, index⟩, hmem, rfl⟩ := List.mem_map.mp hd
  have hc : c ∈ t.classes.toList := List.fst_mem_of_mem_zipIdx hmem
  refine c.over_toData fixed index fun x hx => h x ?_
  exact List.mem_flatMap.mpr ⟨c, hc, hx⟩

end Graph

section Depth

end Depth

end ClassScript
