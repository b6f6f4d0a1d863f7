import ClassScript.ClassTable
import Mathlib.Data.List.Nodup
import Mathlib.Data.List.Pairwise

/-!
# Every history of a class table

A table starts empty and only grows: `define` appends, `resolve?` adds to what is remembered, and
the other operations answer without a change. A class is defined with a base that is in the table
already. So base links point backwards, chains end, and what has been remembered stays right
however many classes follow.

The search without memory is `search?`; nothing below assumes that memory and search agree.
-/

namespace ClassScript

namespace ClassTable

/-- A call on the table. -/
inductive Op where
  | define (c : ClassDef)
  | resolve (i : Nat) (name : String)
  | findMethod (i : Option Nat) (name : String)
  | lookup (name : String)
  | get (name : String)
  | chain (i : Nat)

/-- The table after a call; a call that fails leaves it as it was. -/
def after (t : ClassTable) : Op → ClassTable
  | .define c =>
    match t.define c with
    | .ok (_, u) => u
    | .error _ => t
  | .resolve i name =>
    match t.resolve? i name with
    | some (_, u) => u
    | none => t
  | .findMethod .. | .lookup _ | .get _ | .chain _ => t

/-- A class may only name a base whose index has been handed out. -/
def Admits (t : ClassTable) : Op → Prop
  | .define c => ∀ b, c.base = some b → b < t.size
  | _ => True

/-- `u` comes from `t` by calls that each were admitted when they were made. -/
inductive Reaches (t : ClassTable) : ClassTable → Prop
  | refl : Reaches t t
  | step {u : ClassTable} (op : Op) : Reaches t u → u.Admits op → Reaches t (u.after op)

/-- Class `b` is the base of class `i`. -/
def BaseLink (t : ClassTable) (i b : Nat) : Prop :=
  ∃ c : ClassDef, t.classes[i]? = some c ∧ c.base = some b

/-- Class `i` has no base. -/
def IsRoot (t : ClassTable) (i : Nat) : Prop :=
  ∃ c : ClassDef, t.classes[i]? = some c ∧ c.base = none

/-- What every call keeps. -/
structure WellFormed (t : ClassTable) : Prop where
  index_iff (name : String) (i : Nat) :
    t.index? name = some i ↔ ∃ c, t.classes[i]? = some c ∧ c.name = name
  base_lt (i b : Nat) : t.BaseLink i b → b < i
  known_sound (i : Nat) (name : String) (r : Resolution) :
    t.known.get? (i, name) = some r → t.search? i name = some r

/-- `u` has the classes of `t` at their places, and perhaps more. -/
def Extends (t u : ClassTable) : Prop :=
  ∀ (i : Nat) (c : ClassDef), t.classes[i]? = some c → u.classes[i]? = some c

theorem Extends.refl (t : ClassTable) : t.Extends t := fun _ _ h => h

theorem Extends.trans {t u v : ClassTable} (first : t.Extends u) (second : u.Extends v) :
    t.Extends v :=
  fun i c h => second i c (first i c h)

theorem exists_class {t : ClassTable} {i : Nat} (h : i < t.size) : ∃ c, t.classes[i]? = some c :=
  ⟨t.classes[i], Array.getElem?_eq_getElem h⟩

theorem lt_size {t : ClassTable} {i : Nat} {c : ClassDef} (h : t.classes[i]? = some c) :
    i < t.size := by
  obtain ⟨hi, _⟩ := Array.getElem?_eq_some_iff.mp h
  exact hi

/-- A budget above the index is enough, and a larger table gives the same chain. -/
theorem chainFrom_eq {t u : ClassTable} (backward : ∀ i b, t.BaseLink i b → b < i)
    (ext : t.Extends u) (fuel fuel' : Nat) (i : Nat) (hi : i < t.size) (enough : i < fuel)
    (enough' : i < fuel') : u.chainFrom fuel' i = t.chainFrom fuel i := by
  induction fuel generalizing fuel' i with
  | zero => omega
  | succ fuel ih =>
    obtain ⟨fuel', rfl⟩ := Nat.exists_eq_add_one_of_ne_zero (show fuel' ≠ 0 by omega)
    obtain ⟨c, hc⟩ := exists_class hi
    simp only [chainFrom, hc, ext i c hc]
    cases hb : c.base with
    | none => rfl
    | some b =>
      have hlt := backward i b ⟨c, hc, hb⟩
      simp only [ih fuel' b (by omega) (by omega) (by omega)]

/-- The chain starts at its index, every step of it is a base link, and it ends at a root. -/
theorem chainFrom_spec {t : ClassTable} (backward : ∀ i b, t.BaseLink i b → b < i)
    (fuel i : Nat) (hi : i < t.size) (enough : i < fuel) :
    ∃ rest, t.chainFrom fuel i = some (i :: rest) ∧ List.IsChain t.BaseLink (i :: rest) ∧
      t.IsRoot ((i :: rest).getLast (List.cons_ne_nil i rest)) := by
  induction fuel generalizing i with
  | zero => omega
  | succ fuel ih =>
    obtain ⟨c, hc⟩ := exists_class hi
    cases hb : c.base with
    | none => exact ⟨[], by simp [chainFrom, hc, hb], by simp, c, by simpa using hc, hb⟩
    | some b =>
      have hlt := backward i b ⟨c, hc, hb⟩
      obtain ⟨rest, hchain, hlinks, hroot⟩ := ih b (by omega) (by omega)
      refine ⟨b :: rest, by simp [chainFrom, hc, hb, hchain], ?_, ?_⟩
      · exact List.isChain_cons_cons.mpr ⟨⟨c, hc, hb⟩, hlinks⟩
      · rw [List.getLast_cons_cons]
        exact hroot

/-- Links that all go backwards make the chain strictly decreasing. -/
theorem pairwise_of_links {t : ClassTable} (backward : ∀ i b, t.BaseLink i b → b < i)
    {chain : List Nat} (links : List.IsChain t.BaseLink chain) : chain.Pairwise (· > ·) :=
  List.isChain_iff_pairwise.mp (links.imp fun i b h => backward i b h)

theorem member?_of_extends {t u : ClassTable} (ext : t.Extends u) {i : Nat} (hi : i < t.size)
    (name : String) : u.member? i name = t.member? i name := by
  obtain ⟨c, hc⟩ := exists_class hi
  simp only [member?, hc, ext i c hc]

theorem nearest?_of_extends {t u : ClassTable} (ext : t.Extends u) {chain : List Nat}
    (inside : ∀ i ∈ chain, i < t.size) (sort : Member → Bool) (name : String) :
    u.nearest? sort name chain = t.nearest? sort name chain := by
  unfold nearest?
  induction chain with
  | nil => rfl
  | cons i chain ih =>
    have hi := member?_of_extends ext (inside i List.mem_cons_self) name
    have hrest := ih fun j hj => inside j (List.mem_cons_of_mem i hj)
    simp only [List.findSome?_cons, hi, hrest]

theorem resolveOn_of_extends {t u : ClassTable} (ext : t.Extends u) {chain : List Nat}
    (inside : ∀ i ∈ chain, i < t.size) (name : String) :
    u.resolveOn chain name = t.resolveOn chain name := by
  simp only [resolveOn, nearest?_of_extends ext inside]

namespace WellFormed

variable {t u : ClassTable}

theorem chain?_spec (ht : t.WellFormed) {i : Nat} (hi : i < t.size) :
    ∃ rest, t.chain? i = some (i :: rest) ∧ List.IsChain t.BaseLink (i :: rest) ∧
      t.IsRoot ((i :: rest).getLast (List.cons_ne_nil i rest)) :=
  chainFrom_spec ht.base_lt t.size i hi hi

/-- Later definitions change no answer of the search. -/
theorem search?_of_extends (ht : t.WellFormed) (ext : t.Extends u) {i : Nat} (hi : i < t.size)
    (name : String) : u.search? i name = t.search? i name := by
  obtain ⟨c, hc⟩ := exists_class hi
  have hchain : u.chain? i = t.chain? i :=
    chainFrom_eq ht.base_lt ext t.size u.size i hi hi (lt_size (ext i c hc))
  obtain ⟨rest, hspec, hlinks, _⟩ := ht.chain?_spec hi
  have inside : ∀ j ∈ i :: rest, j < t.size := by
    have hdec := pairwise_of_links ht.base_lt hlinks
    intro j hj
    rcases List.mem_cons.mp hj with rfl | hj
    · exact hi
    · have := List.rel_of_pairwise_cons hdec hj
      omega
  simp only [search?, hchain, hspec, Option.map_some, resolveOn_of_extends ext inside]

/-- An answer of the remembering search, whether it was remembered or not. -/
theorem resolve?_sound (ht : t.WellFormed) {i : Nat} {name : String} {r : Resolution}
    (h : t.resolve? i name = some (r, u)) : t.search? i name = some r := by
  rw [resolve?] at h
  cases hk : t.known.get? (i, name) with
  | some known =>
    simp only [hk, Option.some.injEq, Prod.mk.injEq] at h
    obtain ⟨rfl, _⟩ := h
    exact ht.known_sound i name known hk
  | none =>
    simp only [hk, Option.map_eq_some_iff, Prod.mk.injEq] at h
    obtain ⟨found, hs, rfl, _⟩ := h
    exact hs

/-- Where the search has an answer, so has the remembering search, and it is the same. -/
theorem resolve?_complete (ht : t.WellFormed) {i : Nat} {name : String} {r : Resolution}
    (h : t.search? i name = some r) : ∃ u, t.resolve? i name = some (r, u) := by
  rw [resolve?]
  cases hk : t.known.get? (i, name) with
  | some known =>
    have hsame : known = r := Option.some.inj ((ht.known_sound i name known hk).symm.trans h)
    exact ⟨t, by rw [hsame]⟩
  | none => exact ⟨_, by rw [h]; rfl⟩

theorem search?_isSome (ht : t.WellFormed) {i : Nat} (hi : i < t.size) (name : String) :
    ∃ r, t.search? i name = some r := by
  obtain ⟨rest, hchain, _⟩ := ht.chain?_spec hi
  exact ⟨_, by rw [search?, hchain]; rfl⟩

theorem lt_size_of_search? {i : Nat} {name : String} {r : Resolution}
    (h : t.search? i name = some r) : i < t.size := by
  obtain ⟨chain, hchain, _⟩ := Option.map_eq_some_iff.mp h
  rw [chain?] at hchain
  cases hfuel : t.size with
  | zero => rw [hfuel] at hchain; cases hchain
  | succ fuel =>
    rw [hfuel, chainFrom] at hchain
    cases hc : t.classes[i]? with
    | none => rw [hc] at hchain; cases hchain
    | some c => rw [← hfuel]; exact lt_size hc

theorem empty : ClassTable.empty.WellFormed where
  index_iff name i := by simp [ClassTable.empty, index?, EmptyCollection.emptyCollection]
  base_lt i b := by rintro ⟨c, hc, _⟩; simp [ClassTable.empty] at hc
  known_sound i name r h := by cases h

/-- The table after a definition that went through. -/
theorem define_eq {c : ClassDef} {index : Nat} (h : t.define c = .ok (index, u)) :
    t.index? c.name = none ∧ index = t.size ∧
      u = { t with classes := t.classes.push c, indices := t.indices.insert c.name t.size } := by
  rw [define] at h
  split at h
  · cases h
  · rename_i hnew
    cases h
    exact ⟨by simpa [contains] using hnew, rfl, rfl⟩

theorem extends_define {c : ClassDef} {index : Nat} (h : t.define c = .ok (index, u)) :
    t.Extends u := by
  obtain ⟨_, _, rfl⟩ := define_eq h
  intro i d hd
  have hi := lt_size hd
  simp only [Array.getElem?_push]
  rw [if_neg (by have : t.size = t.classes.size := rfl; omega)]
  exact hd

theorem define (ht : t.WellFormed) {c : ClassDef} {index : Nat}
    (admitted : ∀ b, c.base = some b → b < t.size) (h : t.define c = .ok (index, u)) :
    u.WellFormed := by
  have ext := extends_define h
  obtain ⟨hnew, _, rfl⟩ := define_eq h
  have last {i : Nat} {d : ClassDef} (hd : (t.classes.push c)[i]? = some d) :
      t.classes[i]? = some d ∨ (i = t.size ∧ d = c) := by
    rw [Array.getElem?_push] at hd
    split at hd
    · rename_i hi
      exact Or.inr ⟨hi, (Option.some.inj hd).symm⟩
    · exact Or.inl hd
  refine ⟨?_, ?_, ?_⟩
  · intro name i
    have own : (t.classes.push c)[t.size]? = some c := by simp [size]
    by_cases hname : c.name = name
    · subst hname
      simp only [index?, Bindings.get?_insert_self, Option.some.injEq]
      constructor
      · rintro rfl
        exact ⟨c, own, rfl⟩
      · rintro ⟨d, hd, hdname⟩
        rcases last hd with hold | ⟨rfl, _⟩
        · have hbad := (ht.index_iff c.name i).mpr ⟨d, hold, hdname⟩
          rw [hnew] at hbad
          cases hbad
        · rfl
    · have hget : (t.indices.insert c.name t.size).get? name = t.index? name :=
        Bindings.get?_insert_of_ne _ _ hname
      simp only [index?, hget]
      rw [← index?, ht.index_iff name i]
      constructor
      · rintro ⟨d, hd, hdname⟩
        exact ⟨d, ext i d hd, hdname⟩
      · rintro ⟨d, hd, hdname⟩
        rcases last hd with hold | ⟨_, rfl⟩
        · exact ⟨d, hold, hdname⟩
        · exact absurd hdname hname
  · rintro i b ⟨d, hd, hb⟩
    rcases last hd with hold | ⟨rfl, rfl⟩
    · exact ht.base_lt i b ⟨d, hold, hb⟩
    · exact admitted b hb
  · intro i name r hr
    have hs := ht.known_sound i name r hr
    rw [ht.search?_of_extends ext (lt_size_of_search? hs), hs]

/-- Remembering adds an answer of the search and changes no class. -/
theorem resolve? (ht : t.WellFormed) {i : Nat} {name : String} {r : Resolution}
    (h : t.resolve? i name = some (r, u)) : u.WellFormed ∧ t.Extends u := by
  rw [ClassTable.resolve?] at h
  cases hk : t.known.get? (i, name) with
  | some known =>
    simp only [hk, Option.some.injEq, Prod.mk.injEq] at h
    obtain ⟨_, rfl⟩ := h
    exact ⟨ht, .refl t⟩
  | none =>
    simp only [hk, Option.map_eq_some_iff, Prod.mk.injEq] at h
    obtain ⟨found, hs, _, rfl⟩ := h
    have ext : t.Extends { t with known := t.known.insert (i, name) found } := fun _ _ hc => hc
    refine ⟨⟨ht.index_iff, ht.base_lt, ?_⟩, ext⟩
    intro j other r' hr'
    have hold : t.search? j other = some r' := by
      by_cases hkey : (i, name) = (j, other)
      · cases hkey
        rw [Bindings.get?_insert_self, Option.some.injEq] at hr'
        exact hr' ▸ hs
      · rw [Bindings.get?_insert_of_ne _ _ hkey] at hr'
        exact ht.known_sound j other r' hr'
    rw [ht.search?_of_extends ext (lt_size_of_search? hold), hold]

theorem after (ht : t.WellFormed) {op : Op} (admitted : t.Admits op) :
    (t.after op).WellFormed ∧ t.Extends (t.after op) := by
  cases op with
  | define c =>
    cases h : t.define c with
    | error cause => simpa only [ClassTable.after, h] using ⟨ht, .refl t⟩
    | ok answer => simpa only [ClassTable.after, h] using ⟨ht.define admitted h, extends_define h⟩
  | resolve i name =>
    cases h : t.resolve? i name with
    | none => simpa only [ClassTable.after, h] using ⟨ht, .refl t⟩
    | some answer => simpa only [ClassTable.after, h] using ht.resolve? h
  | findMethod i name => exact ⟨ht, .refl t⟩
  | lookup name => exact ⟨ht, .refl t⟩
  | get name => exact ⟨ht, .refl t⟩
  | chain i => exact ⟨ht, .refl t⟩

theorem of_reaches (ht : t.WellFormed) (h : t.Reaches u) : u.WellFormed ∧ t.Extends u := by
  induction h with
  | refl => exact ⟨ht, .refl t⟩
  | step op _ admitted ih =>
    obtain ⟨hu, ext⟩ := ih
    obtain ⟨hafter, ext'⟩ := hu.after admitted
    exact ⟨hafter, ext.trans ext'⟩

/-- Two places with one name are one place. -/
theorem names_nodup (ht : t.WellFormed) : (t.classes.toList.map ClassDef.name).Nodup := by
  rw [List.nodup_iff_injective_getElem]
  rintro ⟨i, hi⟩ ⟨j, hj⟩ hij
  simp only [List.length_map, Array.length_toList] at hi hj
  simp only [List.getElem_map, Array.getElem_toList] at hij
  have hi' := (ht.index_iff t.classes[i].name i).mpr ⟨_, Array.getElem?_eq_getElem hi, rfl⟩
  have hj' := (ht.index_iff t.classes[i].name j).mpr ⟨_, Array.getElem?_eq_getElem hj, hij.symm⟩
  rw [Fin.mk.injEq]
  exact Option.some.inj (hi'.symm.trans hj')

end WellFormed

/-- At every point of every history: names are unique and the name table is the inverse of the list
of classes; a taken name is refused without a change; bases come before the classes derived from
them; the chain of every class is there, strictly decreasing along base links from the class to a
root; and an answer of the remembering search is that of the search on the present table, on this
table and on every later one. -/
theorem history_sound {t : ClassTable} (history : empty.Reaches t) :
    (t.classes.toList.map ClassDef.name).Nodup ∧
    (∀ name i, t.indices.get? name = some i ↔ t.classes[i]?.map ClassDef.name = some name) ∧
    (∀ c, c.name ∈ t.classes.toList.map ClassDef.name →
      t.define c = .error (.classExists c.name) ∧ t.after (.define c) = t) ∧
    (∀ i b, t.BaseLink i b → b < i) ∧
    (∀ i, i < t.size → ∃ rest, t.chain? i = some (i :: rest) ∧
      (i :: rest).Pairwise (· > ·) ∧ List.IsChain t.BaseLink (i :: rest) ∧
      t.IsRoot ((i :: rest).getLast (List.cons_ne_nil i rest))) ∧
    (∀ i name, i < t.size → ∃ r u, t.resolve? i name = some (r, u)) ∧
    (∀ i name r u, t.resolve? i name = some (r, u) → t.search? i name = some r ∧
      ∀ v, u.Reaches v → v.search? i name = some r ∧ ∃ w, v.resolve? i name = some (r, w)) := by
  obtain ⟨ht, _⟩ := WellFormed.empty.of_reaches history
  refine ⟨ht.names_nodup, ?_, ?_, ht.base_lt, ?_, ?_, ?_⟩
  · intro name i
    rw [← index?, ht.index_iff name i, Option.map_eq_some_iff]
  · intro c hc
    obtain ⟨d, hd, hname⟩ := List.mem_map.mp hc
    obtain ⟨i, hi⟩ := List.mem_iff_getElem?.mp hd
    have htaken := (ht.index_iff c.name i).mpr ⟨d, by simpa using hi, hname⟩
    have hrefused : t.define c = .error (.classExists c.name) := by
      simp [define, contains, htaken]
    exact ⟨hrefused, by simp only [after, hrefused]⟩
  · intro i hi
    obtain ⟨rest, hchain, hlinks, hroot⟩ := ht.chain?_spec hi
    exact ⟨rest, hchain, pairwise_of_links ht.base_lt hlinks, hlinks, hroot⟩
  · intro i name hi
    obtain ⟨r, hr⟩ := ht.search?_isSome hi name
    exact ⟨r, ht.resolve?_complete hr⟩
  · intro i name r u h
    have hsearch := ht.resolve?_sound h
    refine ⟨hsearch, ?_⟩
    intro v hv
    obtain ⟨hu, ext⟩ := ht.resolve? h
    obtain ⟨hwf, ext'⟩ := hu.of_reaches hv
    have hlater : v.search? i name = some r := by
      rw [ht.search?_of_extends (ext.trans ext') (WellFormed.lt_size_of_search? hsearch), hsearch]
    exact ⟨hlater, hwf.resolve?_complete hlater⟩

/-- A class, a question about it that is answered with "not found", and a derived class that has
the method. -/
private def grown : ClassTable :=
  ((empty.after (.define (.ofMembers "A" none [] []))).after (.resolve 0 "m")).after
    (.define (.ofMembers "B" (some 0) [] [.method "m" .publicAccess [] (.mk [] 1) false false 1]))

theorem history_sound_grown :
    empty.Reaches grown ∧ 1 < grown.size ∧
    (grown.classes.toList.map ClassDef.name).Nodup ∧
    (∃ rest, grown.chain? 1 = some (1 :: rest) ∧ (1 :: rest).Pairwise (· > ·)) ∧
    ∀ v, grown.Reaches v → v.search? 0 "m" = some .notFound := by
  have history : empty.Reaches grown := by
    refine .step _ (.step _ (.step _ .refl ?_) trivial) ?_
    · intro b hb; cases hb
    · intro b hb; cases hb; decide
  have size : 1 < grown.size := by decide
  obtain ⟨hnames, _, _, _, hchains, _, hanswers⟩ := history_sound history
  obtain ⟨rest, hchain, hdecreasing, _⟩ := hchains 1 size
  exact ⟨history, size, hnames, ⟨rest, hchain, hdecreasing⟩,
    fun v hv => ((hanswers 0 "m" .notFound grown rfl).2 v hv).1⟩

end ClassTable

end ClassScript
