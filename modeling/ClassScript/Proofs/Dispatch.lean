import ClassScript.Proofs.ClassHistory

/-!
# What a name means along a chain

The search goes over the whole chain twice, for a field and then for a method. It can also be told
class by class: `Resolution.inheriting` is the meaning of a name on a class, given what the class
declares itself and what the name means on its base. In a well-formed table the two agree, whether
answers are remembered or not.
-/

namespace ClassScript

namespace Resolution

/-- What a name means on class `i` that declares `own` and whose base answers `inherited`. -/
def inheriting (i : Nat) (own : Option Member) (inherited : Resolution) : Resolution :=
  match own, inherited with
  | some (.field x a e l), _ => .found i (.field x a e l)
  | _, .found owner (.field x a e l) => .found owner (.field x a e l)
  | some m, _ => .found i m
  | none, r => r

/-- The sort of member that a name means, and the class that owns it. -/
def kindAndOwner : Resolution → Option (Bool × Nat)
  | notFound => none
  | found owner m => some (m.isField, owner)

/-- The method that is found. -/
def method? : Resolution → Option Member
  | notFound => none
  | found _ m => if m.isMethod then some m else none

end Resolution

namespace ClassTable

/-- On class `i` the name is a member of the given sort. -/
def Resolves (t : ClassTable) (sort : Member → Bool) (i : Nat) (name : String) : Prop :=
  ∃ owner m u, t.resolve? i name = some (.found owner m, u) ∧ sort m = true

/-- Class `j` comes strictly after class `i` on the chain of `i`. -/
def StrictAncestor (t : ClassTable) (j i : Nat) : Prop :=
  ∃ rest, t.chain? i = some (i :: rest) ∧ j ∈ rest

theorem nearest?_cons (t : ClassTable) (sort : Member → Bool) (name : String) (i : Nat)
    (chain : List Nat) :
    t.nearest? sort name (i :: chain) =
      (((t.member? i name).filter sort).map fun m => (i, m)).or (t.nearest? sort name chain) := by
  rw [nearest?, nearest?, List.findSome?_cons]
  cases ((t.member? i name).filter sort).map fun m => (i, m) <;> rfl

theorem nearest?_sound {t : ClassTable} {sort : Member → Bool} {name : String} {chain : List Nat}
    {owner : Nat} {m : Member} (h : t.nearest? sort name chain = some (owner, m)) :
    owner ∈ chain ∧ t.member? owner name = some m ∧ sort m = true := by
  induction chain with
  | nil => cases h
  | cons i chain ih =>
    rw [nearest?_cons] at h
    cases hm : (t.member? i name).filter sort with
    | some own =>
      rw [hm] at h
      cases h
      obtain ⟨hown, hsort⟩ := Option.filter_eq_some_iff.mp hm
      exact ⟨List.mem_cons_self, hown, hsort⟩
    | none =>
      rw [hm] at h
      obtain ⟨hmem, hrest⟩ := ih h
      exact ⟨List.mem_cons_of_mem i hmem, hrest⟩

theorem nearest?_isSome {t : ClassTable} {sort : Member → Bool} {name : String} {chain : List Nat}
    {i : Nat} {m : Member} (hi : i ∈ chain) (hm : t.member? i name = some m) (hs : sort m = true) :
    (t.nearest? sort name chain).isSome = true := by
  rw [nearest?, List.isSome_findSome?]
  exact List.any_eq_true.mpr ⟨i, hi, by simp [hm, Option.filter, hs]⟩

/-- One more class at the front of a chain. -/
theorem resolveOn_cons (t : ClassTable) (i : Nat) (chain : List Nat) (name : String) :
    t.resolveOn (i :: chain) name = .inheriting i (t.member? i name) (t.resolveOn chain name) := by
  rw [resolveOn, resolveOn, nearest?_cons, nearest?_cons]
  -- an own field decides; otherwise an inherited one does, and only then do methods count
  rcases hown : t.member? i name with _ | (⟨x, a, e, l⟩ | ⟨x, a, ps, b, v, o, l⟩)
  case some.field => rfl
  all_goals
    rcases hfield : t.nearest? Member.isField name chain with _ | ⟨owner, (⟨y, a', e', l'⟩ | _)⟩
  case none.some.field | some.method.some.field => rfl
  case none.some.method | some.method.some.method => cases (nearest?_sound hfield).2.2
  all_goals
    rcases hmethod : t.nearest? Member.isMethod name chain with _ | ⟨owner, (_ | _)⟩
  case none.none.some.field | some.method.none.some.field => cases (nearest?_sound hmethod).2.2
  all_goals rfl

/-- What is found is declared on the chain under that name. -/
theorem resolveOn_found {t : ClassTable} {chain : List Nat} {name : String} {owner : Nat}
    {m : Member} (h : t.resolveOn chain name = .found owner m) :
    owner ∈ chain ∧ t.member? owner name = some m := by
  rw [resolveOn] at h
  cases hf : t.nearest? Member.isField name chain with
  | some found =>
    rw [hf] at h
    cases h
    obtain ⟨hmem, hm, _⟩ := nearest?_sound hf
    exact ⟨hmem, hm⟩
  | none =>
    rw [hf, Option.none_or] at h
    cases hm : t.nearest? Member.isMethod name chain with
    | none => rw [hm] at h; cases h
    | some found =>
      rw [hm] at h
      cases h
      obtain ⟨hmem, hm, _⟩ := nearest?_sound hm
      exact ⟨hmem, hm⟩

/-- A field anywhere on the chain is what the name means. -/
theorem resolveOn_field_iff {t : ClassTable} {chain : List Nat} {name : String} :
    (∃ owner m, t.resolveOn chain name = .found owner m ∧ m.isField = true) ↔
      ∃ i ∈ chain, ∃ m, t.member? i name = some m ∧ m.isField = true := by
  constructor
  · rintro ⟨owner, m, h, hm⟩
    obtain ⟨hmem, hown⟩ := resolveOn_found h
    exact ⟨owner, hmem, m, hown, hm⟩
  · rintro ⟨i, hi, m, hown, hm⟩
    obtain ⟨⟨owner, found⟩, hfound⟩ := Option.isSome_iff_exists.mp (nearest?_isSome hi hown hm)
    refine ⟨owner, found, ?_, (nearest?_sound hfound).2.2⟩
    rw [resolveOn, hfound]
    rfl

namespace WellFormed

variable {t u : ClassTable}

/-- The chain of a class without a base. -/
theorem chain?_root {i : Nat} {c : ClassDef} (hc : t.classes[i]? = some c) (hb : c.base = none) :
    t.chain? i = some [i] := by
  have hi := lt_size hc
  rw [chain?]
  obtain ⟨fuel, hfuel⟩ := Nat.exists_eq_add_one_of_ne_zero (show t.size ≠ 0 by omega)
  rw [hfuel, chainFrom, hc]
  simp only [hb]

/-- The chain of a derived class is that of its base and one more. -/
theorem chain?_derived (ht : t.WellFormed) {i b : Nat} {c : ClassDef}
    (hc : t.classes[i]? = some c) (hb : c.base = some b) :
    ∃ chain, t.chain? b = some chain ∧ t.chain? i = some (i :: chain) := by
  have hi := lt_size hc
  have hlt := ht.base_lt i b ⟨c, hc, hb⟩
  obtain ⟨rest, hchain, _⟩ := ht.chain?_spec (show b < t.size by omega)
  refine ⟨b :: rest, hchain, ?_⟩
  obtain ⟨fuel, hfuel⟩ := Nat.exists_eq_add_one_of_ne_zero (show t.size ≠ 0 by omega)
  have hsame : t.chainFrom fuel b = t.chain? b :=
    chainFrom_eq ht.base_lt (.refl t) t.size fuel b (by omega) (by omega) (by omega)
  rw [chain?, hfuel, chainFrom, hc]
  simp only [hb, hsame, hchain, Option.map_some]

/-- What a name means on a class, by its own members and its base. -/
theorem search?_eq (ht : t.WellFormed) {i : Nat} {c : ClassDef} (hc : t.classes[i]? = some c)
    (name : String) :
    t.search? i name = some (.inheriting i (c.members.get? name)
      ((c.base.bind fun b => t.search? b name).getD .notFound)) := by
  have hown : t.member? i name = c.members.get? name := by rw [member?, hc]; rfl
  cases hb : c.base with
  | none =>
    rw [search?, chain?_root hc hb, Option.map_some, resolveOn_cons, hown]
    rfl
  | some b =>
    obtain ⟨chain, hbase, hchain⟩ := ht.chain?_derived hc hb
    rw [search?, hchain, Option.map_some, resolveOn_cons, hown, Option.bind_some, search?, hbase]
    rfl

theorem resolves_iff (ht : t.WellFormed) {sort : Member → Bool} {i : Nat} {name : String} :
    t.Resolves sort i name ↔
      ∃ owner m, t.search? i name = some (.found owner m) ∧ sort m = true := by
  constructor
  · rintro ⟨owner, m, u, h, hm⟩
    exact ⟨owner, m, ht.resolve?_sound h, hm⟩
  · rintro ⟨owner, m, h, hm⟩
    obtain ⟨u, hu⟩ := ht.resolve?_complete h
    exact ⟨owner, m, u, hu, hm⟩

/-- Later definitions leave the meaning of a name as it is. -/
theorem resolves_extends_iff (ht : t.WellFormed) (hu : u.WellFormed) (ext : t.Extends u)
    {sort : Member → Bool} {i : Nat} (hi : i < t.size) {name : String} :
    u.Resolves sort i name ↔ t.Resolves sort i name := by
  rw [hu.resolves_iff, ht.resolves_iff, ht.search?_of_extends ext hi]

theorem resolves_of_extends (ht : t.WellFormed) (hu : u.WellFormed) (ext : t.Extends u)
    {sort : Member → Bool} {i : Nat} {name : String} (h : t.Resolves sort i name) :
    u.Resolves sort i name := by
  obtain ⟨owner, m, hs, _⟩ := ht.resolves_iff.mp h
  exact (ht.resolves_extends_iff hu ext (lt_size_of_search? hs)).mpr h

/-- A name is a field of a class when it is declared as one anywhere on the chain. -/
theorem resolves_field_iff (ht : t.WellFormed) {i : Nat} {chain : List Nat}
    (hchain : t.chain? i = some chain) {name : String} :
    t.Resolves Member.isField i name ↔
      ∃ j ∈ chain, ∃ m, t.member? j name = some m ∧ m.isField = true := by
  rw [ht.resolves_iff, ← resolveOn_field_iff, search?, hchain]
  simp

theorem resolve?_classes {i : Nat} {name : String} {r : Resolution}
    (h : t.resolve? i name = some (r, u)) : u.classes = t.classes ∧ u.indices = t.indices := by
  rw [ClassTable.resolve?] at h
  split at h
  · cases h
    exact ⟨rfl, rfl⟩
  · obtain ⟨_, _, hpair⟩ := Option.map_eq_some_iff.mp h
    cases hpair
    exact ⟨rfl, rfl⟩

theorem lt_size_of_lookup (ht : t.WellFormed) {name : String} {i : Nat}
    (h : t.lookup name = .ok i) : i < t.size := by
  rw [lookup] at h
  split at h
  · rename_i j hj
    cases h
    obtain ⟨c, hc, _⟩ := (ht.index_iff name i).mp hj
    exact lt_size hc
  · cases h

theorem lt_size_of_extends (ext : t.Extends u) {i : Nat} (hi : i < t.size) : i < u.size := by
  obtain ⟨c, hc⟩ := exists_class hi
  exact lt_size (ext i c hc)

theorem chain?_of_extends (ht : t.WellFormed) (ext : t.Extends u) {i : Nat} (hi : i < t.size) :
    u.chain? i = t.chain? i := by
  exact chainFrom_eq ht.base_lt ext t.size u.size i hi hi (lt_size_of_extends ext hi)

theorem lt_size_of_chain? {i : Nat} {chain : List Nat} (h : t.chain? i = some chain) :
    i < t.size := by
  have hsearch : t.search? i "" = some (t.resolveOn chain "") := by rw [search?, h]; rfl
  exact lt_size_of_search? hsearch

/-- A chain goes on from each of its classes as the chain of that class. -/
theorem chain?_suffix (ht : t.WellFormed) {i j : Nat} {chain : List Nat}
    (h : t.chain? i = some chain) (hj : j ∈ chain) :
    ∃ rest, t.chain? j = some (j :: rest) ∧ j :: rest <:+ chain := by
  induction i using Nat.strongRecOn generalizing chain with
  | ind i ih =>
    obtain ⟨c, hc⟩ := exists_class (lt_size_of_chain? h)
    cases hb : c.base with
    | none =>
      have hchain := chain?_root hc hb
      rw [h] at hchain
      cases hchain
      cases List.mem_singleton.mp hj
      exact ⟨[], h, List.suffix_refl _⟩
    | some b =>
      obtain ⟨rest, hbase, hchain⟩ := ht.chain?_derived hc hb
      rw [h] at hchain
      cases hchain
      rcases List.mem_cons.mp hj with rfl | hj
      · exact ⟨rest, h, List.suffix_refl _⟩
      · obtain ⟨rest', hj', hsuffix⟩ := ih b (ht.base_lt i b ⟨c, hc, hb⟩) hbase hj
        exact ⟨rest', hj', hsuffix.trans (List.suffix_cons i rest)⟩

theorem mem_chain?_lt (ht : t.WellFormed) {i j : Nat} {chain : List Nat}
    (h : t.chain? i = some chain) (hj : j ∈ chain) : j < t.size := by
  obtain ⟨rest, hchain, _⟩ := ht.chain?_suffix h hj
  exact lt_size_of_chain? hchain

theorem strictAncestor_lt (ht : t.WellFormed) {i j : Nat} (h : t.StrictAncestor j i) : j < i := by
  obtain ⟨rest, hchain, hj⟩ := h
  obtain ⟨rest', hspec, hlinks, _⟩ := ht.chain?_spec (lt_size_of_chain? hchain)
  rw [hchain] at hspec
  cases hspec
  exact List.rel_of_pairwise_cons (pairwise_of_links ht.base_lt hlinks) hj

end WellFormed

end ClassTable

end ClassScript
