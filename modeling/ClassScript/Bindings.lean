/-!
# Bindings

A finite map that remembers the order in which its keys were first bound: a key bound again keeps
its place and changes its value.
-/

namespace ClassScript

structure Bindings (κ : Type) (α : Type) where
  entries : List (κ × α)

namespace Bindings

variable {κ α : Type} [DecidableEq κ]

def empty : Bindings κ α := ⟨[]⟩

instance : EmptyCollection (Bindings κ α) := ⟨empty⟩
instance : Inhabited (Bindings κ α) := ⟨empty⟩

def keys (b : Bindings κ α) : List κ :=
  b.entries.map Prod.fst

def values (b : Bindings κ α) : List α :=
  b.entries.map Prod.snd

def find (key : κ) : List (κ × α) → Option α
  | [] => none
  | (k, a) :: rest => if k = key then some a else find key rest

def get? (b : Bindings κ α) (key : κ) : Option α :=
  find key b.entries

def contains (b : Bindings κ α) (key : κ) : Bool :=
  (b.get? key).isSome

/-- Replaces the value at `key`, or appends the pair when the key is new. -/
def put (key : κ) (a : α) : List (κ × α) → List (κ × α)
  | [] => [(key, a)]
  | (k, old) :: rest => if k = key then (key, a) :: rest else (k, old) :: put key a rest

def insert (b : Bindings κ α) (key : κ) (a : α) : Bindings κ α :=
  ⟨put key a b.entries⟩

/-- Binds the pairs from left to right. -/
def ofList (pairs : List (κ × α)) : Bindings κ α :=
  pairs.foldl (fun b p => b.insert p.1 p.2) empty

@[simp] theorem get?_empty (key : κ) : (empty : Bindings κ α).get? key = none := rfl

theorem find_put (key key' : κ) (a : α) (l : List (κ × α)) :
    find key' (put key a l) = if key = key' then some a else find key' l := by
  induction l with
  | nil => rfl
  | cons p rest ih =>
    obtain ⟨k, old⟩ := p
    by_cases hk : k = key
    · subst hk
      by_cases h : k = key' <;> simp [put, find, h]
    · by_cases h : key = key'
      · subst h
        simp [put, find, hk, ih]
      · have step : put key a ((k, old) :: rest) = (k, old) :: put key a rest := if_neg hk
        rw [step, find, find, ih, if_neg h, if_neg h]

@[simp] theorem get?_insert_self (b : Bindings κ α) (key : κ) (a : α) :
    (b.insert key a).get? key = some a := by
  simp [insert, get?, find_put]

theorem get?_insert_of_ne (b : Bindings κ α) {key key' : κ} (a : α) (h : key ≠ key') :
    (b.insert key a).get? key' = b.get? key' := by
  simp [insert, get?, find_put, h]

theorem mem_of_find {key : κ} {a : α} {l : List (κ × α)} (h : find key l = some a) :
    (key, a) ∈ l := by
  induction l with
  | nil => cases h
  | cons p rest ih =>
    obtain ⟨k, old⟩ := p
    rw [find] at h
    split at h
    · rename_i hk
      cases h
      rw [hk]
      exact List.mem_cons_self
    · exact List.mem_cons_of_mem _ (ih h)

theorem isSome_find_of_mem {key : κ} {a : α} {l : List (κ × α)} (h : (key, a) ∈ l) :
    (find key l).isSome = true := by
  induction l with
  | nil => cases h
  | cons p rest ih =>
    obtain ⟨k, old⟩ := p
    rw [find]
    split
    · rfl
    · rename_i hk
      rcases List.mem_cons.mp h with heq | hrest
      · cases heq
        exact absurd rfl hk
      · exact ih hrest

theorem mem_keys_iff (b : Bindings κ α) (key : κ) :
    key ∈ b.keys ↔ (b.get? key).isSome = true := by
  constructor
  · intro h
    obtain ⟨⟨k, a⟩, hmem, rfl⟩ := List.mem_map.mp h
    exact isSome_find_of_mem hmem
  · intro h
    obtain ⟨a, ha⟩ := Option.isSome_iff_exists.mp h
    exact List.mem_map.mpr ⟨(key, a), mem_of_find ha, rfl⟩

/-- A map in which no key is bound twice. -/
def Distinct (b : Bindings κ α) : Prop :=
  b.keys.Nodup

theorem mem_put {key : κ} {a : α} {l : List (κ × α)} {p : κ × α} (h : p ∈ put key a l) :
    p = (key, a) ∨ p ∈ l := by
  induction l with
  | nil => exact Or.inl (List.mem_singleton.mp h)
  | cons q rest ih =>
    obtain ⟨k, old⟩ := q
    rw [put] at h
    split at h
    · rcases List.mem_cons.mp h with h | h
      · exact Or.inl h
      · exact Or.inr (List.mem_cons_of_mem _ h)
    · rcases List.mem_cons.mp h with h | h
      · exact Or.inr (h ▸ List.mem_cons_self)
      · exact (ih h).imp_right (List.mem_cons_of_mem _)

theorem mem_keys_insert (b : Bindings κ α) (key key' : κ) (a : α) :
    key' ∈ (b.insert key a).keys ↔ key' = key ∨ key' ∈ b.keys := by
  rw [mem_keys_iff, mem_keys_iff]
  by_cases h : key = key'
  · subst h
    simp
  · rw [get?_insert_of_ne b a h]
    simp [Ne.symm h]

theorem mem_values_of_get? {b : Bindings κ α} {key : κ} {a : α} (h : b.get? key = some a) :
    a ∈ b.values :=
  List.mem_map.mpr ⟨(key, a), mem_of_find h, rfl⟩

theorem mem_values_insert {b : Bindings κ α} {key : κ} {a x : α}
    (h : x ∈ (b.insert key a).values) : x = a ∨ x ∈ b.values := by
  obtain ⟨p, hp, rfl⟩ := List.mem_map.mp h
  rcases mem_put hp with rfl | hp
  · exact Or.inl rfl
  · exact Or.inr (List.mem_map.mpr ⟨p, hp, rfl⟩)

theorem Distinct.insert {b : Bindings κ α} (h : b.Distinct) (key : κ) (a : α) :
    (b.insert key a).Distinct := by
  have keep (l : List (κ × α)) (hl : (l.map Prod.fst).Nodup) :
      ((put key a l).map Prod.fst).Nodup := by
    induction l with
    | nil => simp [put]
    | cons q rest ih =>
      obtain ⟨k, old⟩ := q
      obtain ⟨hk, hrest⟩ := List.nodup_cons.mp hl
      rw [put]
      split
      · rename_i heq
        rw [← heq]
        exact List.nodup_cons.mpr ⟨hk, hrest⟩
      · rename_i hne
        refine List.nodup_cons.mpr ⟨fun hmem => ?_, ih hrest⟩
        obtain ⟨p, hp, hpk⟩ := List.mem_map.mp hmem
        rcases mem_put hp with rfl | hp
        · exact hne hpk.symm
        · exact hk (List.mem_map.mpr ⟨p, hp, hpk⟩)
  exact keep b.entries h

theorem Distinct.get?_of_mem {b : Bindings κ α} (h : b.Distinct) {key : κ} {a : α}
    (hmem : (key, a) ∈ b.entries) : b.get? key = some a := by
  have unique (l : List (κ × α)) (hl : (l.map Prod.fst).Nodup) (hmem : (key, a) ∈ l) :
      find key l = some a := by
    induction l with
    | nil => cases hmem
    | cons q rest ih =>
      obtain ⟨k, old⟩ := q
      obtain ⟨hk, hrest⟩ := List.nodup_cons.mp hl
      rw [find]
      rcases List.mem_cons.mp hmem with heq | hin
      · cases heq
        exact if_pos rfl
      · have hne : k ≠ key := by
          rintro rfl
          exact hk (List.mem_map.mpr ⟨(k, a), hin, rfl⟩)
        rw [if_neg hne]
        exact ih hrest hin
  exact unique b.entries h hmem

/-- A map made from a list binds no key twice, and nothing but pairs of the list. -/
theorem ofList_spec (pairs : List (κ × α)) :
    (ofList pairs).Distinct ∧ ∀ p ∈ (ofList pairs).entries, p ∈ pairs := by
  have main (rest : List (κ × α)) (b : Bindings κ α) (hb : b.Distinct)
      (hsub : ∀ p ∈ b.entries, p ∈ pairs) (hrest : ∀ p ∈ rest, p ∈ pairs) :
      (rest.foldl (fun b p => b.insert p.1 p.2) b).Distinct ∧
        ∀ p ∈ (rest.foldl (fun b p => b.insert p.1 p.2) b).entries, p ∈ pairs := by
    induction rest generalizing b with
    | nil => exact ⟨hb, hsub⟩
    | cons q rest ih =>
      refine ih (b.insert q.1 q.2) (hb.insert q.1 q.2) ?_ ?_
      · intro p hp
        rcases mem_put hp with rfl | hp
        · exact hrest q List.mem_cons_self
        · exact hsub p hp
      · exact fun p hp => hrest p (List.mem_cons_of_mem q hp)
  exact main pairs empty List.nodup_nil (by simp [empty]) fun _ hp => hp

/-- Applies a function to every value. -/
def mapValues {β : Type} (f : α → β) (b : Bindings κ α) : Bindings κ β :=
  ⟨b.entries.map fun p => (p.1, f p.2)⟩

theorem get?_mapValues {β : Type} (f : α → β) (b : Bindings κ α) (key : κ) :
    (b.mapValues f).get? key = (b.get? key).map f := by
  have entry (l : List (κ × α)) :
      find key (l.map fun p => (p.1, f p.2)) = (find key l).map f := by
    induction l with
    | nil => rfl
    | cons p rest ih =>
      rw [List.map_cons, find, find, ih]
      split <;> rfl
  exact entry b.entries

theorem mapValues_insert {β : Type} (f : α → β) (b : Bindings κ α) (key : κ) (a : α) :
    (b.insert key a).mapValues f = (b.mapValues f).insert key (f a) := by
  have entries (l : List (κ × α)) :
      (put key a l).map (fun p => (p.1, f p.2)) = put key (f a) (l.map fun p => (p.1, f p.2)) := by
    induction l with
    | nil => rfl
    | cons p rest ih =>
      rw [List.map_cons, put, put]
      split
      · rfl
      · rw [List.map_cons, ih]
  exact congrArg mk (entries b.entries)

omit [DecidableEq κ] in
theorem values_mapValues {β : Type} (f : α → β) (b : Bindings κ α) :
    (b.mapValues f).values = b.values.map f := by
  simp [mapValues, values]

theorem mapValues_ofList {β : Type} (f : α → β) (pairs : List (κ × α)) :
    (ofList pairs).mapValues f = ofList (pairs.map fun p => (p.1, f p.2)) := by
  have fold (rest : List (κ × α)) (b : Bindings κ α) :
      (rest.foldl (fun b p => b.insert p.1 p.2) b).mapValues f =
        (rest.map fun p => (p.1, f p.2)).foldl (fun b p => b.insert p.1 p.2) (b.mapValues f) := by
    induction rest generalizing b with
    | nil => rfl
    | cons p rest ih => rw [List.foldl_cons, List.map_cons, List.foldl_cons, ih, mapValues_insert]
  exact fold pairs empty

theorem mem_of_get?_ofList {pairs : List (κ × α)} {key : κ} {a : α}
    (h : (ofList pairs).get? key = some a) : (key, a) ∈ pairs :=
  (ofList_spec pairs).2 _ (mem_of_find h)

theorem find_append (key : κ) (l l' : List (κ × α)) :
    find key (l ++ l') = (find key l).or (find key l') := by
  induction l with
  | nil => rfl
  | cons p rest ih =>
    rw [List.cons_append, find, find, ih]
    split <;> rfl

theorem ofList_concat (pairs : List (κ × α)) (p : κ × α) :
    ofList (pairs ++ [p]) = (ofList pairs).insert p.1 p.2 := by
  rw [ofList, List.foldl_append]
  rfl

/-- Of several values for a key the last one counts. -/
theorem get?_ofList (pairs : List (κ × α)) (key : κ) :
    (ofList pairs).get? key = find key pairs.reverse := by
  rw [← List.reverse_reverse pairs]
  induction pairs.reverse with
  | nil => rfl
  | cons p rest ih =>
    rw [List.reverse_cons, ofList_concat, List.reverse_concat, find, List.reverse_reverse]
    split
    · rename_i hk
      rw [hk, get?_insert_self]
    · rename_i hk
      rw [get?_insert_of_ne _ _ hk, ih, List.reverse_reverse]

/-- A key that is bound already keeps its place. -/
theorem keys_insert (b : Bindings κ α) (key : κ) (a : α) :
    (b.insert key a).keys = if key ∈ b.keys then b.keys else b.keys ++ [key] := by
  have put_keys (l : List (κ × α)) : (put key a l).map Prod.fst =
      if key ∈ l.map Prod.fst then l.map Prod.fst else l.map Prod.fst ++ [key] := by
    induction l with
    | nil => rfl
    | cons p rest ih =>
      obtain ⟨k, old⟩ := p
      by_cases hk : k = key
      · subst hk
        simp [put]
      · rw [put, if_neg hk, List.map_cons, ih]
        simp only [List.map_cons, List.mem_cons, Ne.symm hk, false_or]
        split <;> rfl
  exact put_keys b.entries

/-- The keys stand in the order of their first values. -/
theorem keys_ofList (pairs : List (κ × α)) :
    (ofList pairs).keys = (pairs.map Prod.fst).eraseDups := by
  rw [← List.reverse_reverse pairs]
  induction pairs.reverse with
  | nil => rfl
  | cons p rest ih =>
    rw [List.reverse_cons, ofList_concat, keys_insert, ih, List.map_append, List.eraseDups_append]
    generalize rest.reverse.map Prod.fst = ks
    by_cases hp : p.1 ∈ ks <;> simp [List.removeAll, hp, List.eraseDups_cons]

/-- Where no key is bound twice, it makes no difference which end the search starts from. -/
theorem find_reverse {l : List (κ × α)} (h : (l.map Prod.fst).Nodup) (key : κ) :
    find key l.reverse = find key l := by
  have once : (⟨l⟩ : Bindings κ α).Distinct := h
  have back : (⟨l.reverse⟩ : Bindings κ α).Distinct := by
    rw [Distinct, keys, List.map_reverse]
    exact List.pairwise_reverse.mpr (h.imp Ne.symm)
  refine Option.ext fun a => ⟨fun ha => ?_, fun ha => ?_⟩
  · exact once.get?_of_mem (List.mem_reverse.mp (mem_of_find ha))
  · exact back.get?_of_mem (List.mem_reverse.mpr (mem_of_find ha))

theorem put_of_not_mem {key : κ} (a : α) {l : List (κ × α)} (h : key ∉ l.map Prod.fst) :
    put key a l = l ++ [(key, a)] := by
  induction l with
  | nil => rfl
  | cons p rest ih =>
    obtain ⟨k, old⟩ := p
    rw [List.map_cons, List.mem_cons, not_or] at h
    rw [put, if_neg (Ne.symm h.1), ih h.2, List.cons_append]

/-- Pairs in which no key is repeated are kept as they are. -/
theorem entries_ofList {pairs : List (κ × α)} (h : (pairs.map Prod.fst).Nodup) :
    (ofList pairs).entries = pairs := by
  rw [← List.reverse_reverse pairs] at h ⊢
  generalize pairs.reverse = backwards at h ⊢
  induction backwards with
  | nil => rfl
  | cons p rest ih =>
    rw [List.reverse_cons, List.map_append, List.nodup_append] at h
    have hnew : p.1 ∉ rest.reverse.map Prod.fst := by
      intro hmem
      exact h.2.2 _ hmem _ (by simp) rfl
    rw [List.reverse_cons, ofList_concat, insert, ih h.1, put_of_not_mem p.2 hnew]

end Bindings

end ClassScript
