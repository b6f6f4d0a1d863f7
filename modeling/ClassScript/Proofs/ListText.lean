import Mathlib.Data.List.Forall2
import ClassScript.Proofs.QuotedText

/-!
# The text of a list is unambiguous

Texts inside a list are quoted, so commas, brackets and quotes that belong to a text are told from
those that hold the list together. Among values that are built from `null`, booleans and texts by
lists, what is shown of one is never the start of what is shown of another: read from the left,
each character decides how to go on.

Numbers are left out: where one ends is seen from what follows it. So are objects and methods,
of which no more than names are shown.
-/

namespace ClassScript

/-- A literal ends where the rule for literals ends, so what is written in it can be told from what
follows. -/
theorem Text.escapeBody_append_inj {cs ds rest rest' : List Char}
    (h : escapeBody cs ++ '"' :: rest = escapeBody ds ++ '"' :: rest') :
    cs = ds ∧ rest = rest' := by
  have taken := congrArg Rule.stringBody h
  rw [Rule.stringBody_escapeBody, Rule.stringBody_escapeBody] at taken
  have length : (escapeBody cs).length = (escapeBody ds).length := by simpa using taken
  obtain ⟨bodies, behind⟩ := List.append_inj h length
  constructor
  · rw [← unescapeBody_escapeBody cs, bodies, unescapeBody_escapeBody]
  · exact (List.cons.inj behind).2

namespace Value

/-- Built from `null`, booleans and texts by lists. -/
inductive Plain : Value → Prop
  | null : Plain .null
  | boolean (b : Bool) : Plain (.boolean b)
  | text (s : String) : Plain (.text s)
  | list (id : Nat) {items : List Value} : (∀ v ∈ items, Plain v) → Plain (.list id items)

/-- Equal element by element, whether or not they are one and the same list. -/
inductive Equal : Value → Value → Prop
  | null : Equal .null .null
  | boolean (b : Bool) : Equal (.boolean b) (.boolean b)
  | text (s : String) : Equal (.text s) (.text s)
  | list (id id' : Nat) {items items' : List Value} : List.Forall₂ Equal items items' →
    Equal (.list id items) (.list id' items')

/-- The first character that is shown of a plain value. -/
def opening : Value → Char
  | null => 'n'
  | boolean true => 't'
  | boolean false => 'f'
  | text _ => '"'
  | _ => '['

/-- No value opens with what closes a list. -/
theorem opening_ne_bracket (v : Value) : v.opening ≠ ']' := by
  fun_cases opening v <;> decide

theorem nestedText_list (id : Nat) (items : List Value) (rest : List Char) :
    (list id items).nestedText.toList ++ rest =
      '[' :: ((itemsText items).toList ++ ']' :: rest) := by
  rw [nestedText, String.toList_append, String.toList_append, List.append_assoc, List.append_assoc]
  rfl

theorem nestedText_text (s : String) (rest : List Char) :
    (text s).nestedText.toList ++ rest = '"' :: (Text.escapeBody s.toList ++ '"' :: rest) := by
  rw [nestedText, Text.literal, String.toList_ofList, List.cons_append, List.append_assoc]
  rfl

theorem Plain.opens {v : Value} (h : v.Plain) (rest : List Char) :
    ∃ more, v.nestedText.toList ++ rest = v.opening :: more := by
  cases h with
  | null => exact ⟨_, rfl⟩
  | boolean b => cases b <;> exact ⟨_, rfl⟩
  | text s => exact ⟨_, nestedText_text s rest⟩
  | list id _ => exact ⟨_, nestedText_list id _ rest⟩

/-- What follows an item of a list: the end of the list, or the other items. -/
def afterItem (items : List Value) (rest : List Char) : List Char :=
  match items with
  | [] => ']' :: rest
  | _ :: _ => ',' :: ' ' :: ((itemsText items).toList ++ ']' :: rest)

theorem itemsText_cons (v : Value) (items : List Value) (rest : List Char) :
    (itemsText (v :: items)).toList ++ ']' :: rest =
      v.nestedText.toList ++ afterItem items rest := by
  cases items with
  | nil => rw [itemsText, afterItem]
  | cons w items =>
    have step : itemsText (v :: w :: items) = v.nestedText ++ ", " ++ itemsText (w :: items) := by
      rw [itemsText]
      nofun
    rw [step, afterItem, String.toList_append, String.toList_append, List.append_assoc,
      List.append_assoc]
    rfl

/-- Whatever follows the value `v`, its text tells it from all other plain values. -/
def Readable (v : Value) : Prop :=
  ∀ {w : Value}, w.Plain → ∀ {rest rest' : List Char},
    v.nestedText.toList ++ rest = w.nestedText.toList ++ rest' → v.Equal w ∧ rest = rest'

/-- Items that are each told from all others make up a list that is: by induction on the items. -/
theorem itemsText_inj {items items' : List Value} (plain : ∀ v ∈ items, v.Plain)
    (readable : ∀ v ∈ items, v.Readable) (plain' : ∀ v ∈ items', v.Plain) {rest rest' : List Char}
    (h : (itemsText items).toList ++ ']' :: rest = (itemsText items').toList ++ ']' :: rest') :
    List.Forall₂ Equal items items' ∧ rest = rest' := by
  have nonempty {v : Value} (hv : v.Plain) (vs : List Value) (r r' : List Char) :
      (itemsText (v :: vs)).toList ++ ']' :: r ≠ ']' :: r' := by
    obtain ⟨more, opens⟩ := hv.opens (afterItem vs r)
    rw [itemsText_cons, opens]
    intro heq
    exact v.opening_ne_bracket (List.cons.inj heq).1
  induction items generalizing items' with
  | nil =>
    cases items' with
    | nil => exact ⟨.nil, (List.cons.inj h).2⟩
    | cons w ws => exact absurd h.symm (nonempty (plain' w List.mem_cons_self) ws _ _)
  | cons v vs ih =>
    cases items' with
    | nil => exact absurd h (nonempty (plain v List.mem_cons_self) vs _ _)
    | cons w ws =>
      rw [itemsText_cons, itemsText_cons] at h
      obtain ⟨first, behind⟩ := readable v List.mem_cons_self (plain' w List.mem_cons_self) h
      have others : List.Forall₂ Equal vs ws ∧ rest = rest' := by
        obtain ⟨_, plainRest⟩ := List.forall_mem_cons.mp plain
        obtain ⟨_, readableRest⟩ := List.forall_mem_cons.mp readable
        obtain ⟨_, plainRest'⟩ := List.forall_mem_cons.mp plain'
        cases vs with
        | nil =>
          cases ws with
          | nil => exact ⟨.nil, (List.cons.inj behind).2⟩
          | cons => exact absurd (List.cons.inj behind).1 (by decide)
        | cons =>
          cases ws with
          | nil => exact absurd (List.cons.inj behind).1 (by decide)
          | cons =>
            obtain ⟨_, spaced⟩ := List.cons.inj behind
            exact ih plainRest readableRest plainRest' (List.cons.inj spaced).2
      exact ⟨.cons first others.1, others.2⟩

/-- Values of one shape. -/
inductive SameShape : Value → Value → Prop
  | null : SameShape .null .null
  | boolean (b : Bool) : SameShape (.boolean b) (.boolean b)
  | text (s s' : String) : SameShape (.text s) (.text s')
  | list (id id' : Nat) (items items' : List Value) : SameShape (.list id items) (.list id' items')

/-- The shape is seen from the first character. -/
theorem Plain.sameShape {v w : Value} (hv : v.Plain) (hw : w.Plain) {rest rest' : List Char}
    (h : v.nestedText.toList ++ rest = w.nestedText.toList ++ rest') : v.SameShape w := by
  have same : v.opening = w.opening := by
    obtain ⟨more, opens⟩ := hv.opens rest
    obtain ⟨more', opens'⟩ := hw.opens rest'
    rw [opens, opens'] at h
    exact (List.cons.inj h).1
  cases hv with
  | null =>
    cases hw with
    | null => exact .null
    | boolean b => cases b <;> simp [opening] at same
    | _ => simp [opening] at same
  | boolean b =>
    cases hw with
    | boolean b' =>
      obtain rfl : b = b' := by cases b <;> cases b' <;> simp [opening] at same ⊢
      exact .boolean b
    | _ => cases b <;> simp [opening] at same
  | text s =>
    cases hw with
    | text s' => exact .text s s'
    | boolean b => cases b <;> simp [opening] at same
    | _ => simp [opening] at same
  | list id _ =>
    cases hw with
    | list id' _ => exact .list id id' _ _
    | boolean b => cases b <;> simp [opening] at same
    | _ => simp [opening] at same

/-- Every plain value is told from all others: by induction on the value. -/
theorem Plain.readable {v : Value} (hv : v.Plain) : v.Readable := by
  induction hv with
  | null =>
    intro w hw rest rest' h
    cases Plain.null.sameShape hw h
    exact ⟨.null, List.append_cancel_left h⟩
  | boolean b =>
    intro w hw rest rest' h
    cases (Plain.boolean b).sameShape hw h
    exact ⟨.boolean b, List.append_cancel_left h⟩
  | text s =>
    intro w hw rest rest' h
    cases (Plain.text s).sameShape hw h with
    | text _ s' =>
      rw [nestedText_text, nestedText_text] at h
      obtain ⟨hchars, hrest⟩ := Text.escapeBody_append_inj (List.cons.inj h).2
      obtain rfl := String.toList_inj.mp hchars
      exact ⟨.text s, hrest⟩
  | list id plain readable =>
    intro w hw rest rest' h
    cases (Plain.list id plain).sameShape hw h with
    | list _ id' _ items' =>
      cases hw with
      | list _ plain' =>
        rw [nestedText_list, nestedText_list] at h
        obtain ⟨items, hrest⟩ := itemsText_inj plain readable plain' (List.cons.inj h).2
        exact ⟨.list id id' items, hrest⟩

end Value

open Value

/-- Two lists that are built from `null`, booleans, texts and such lists, to any depth, and that are
shown by the same text have equal elements. -/
theorem list_text_unambiguous {id id' : Nat} {items items' : List Value}
    (plain : (Value.list id items).Plain) (plain' : (Value.list id' items').Plain)
    (h : (Value.list id items).toText = (Value.list id' items').toText) :
    List.Forall₂ Equal items items' := by
  have text : (Value.list id items).nestedText.toList ++ [] =
      (Value.list id' items').nestedText.toList ++ [] :=
    congrArg (fun s : String => s.toList ++ []) h
  cases (plain.readable plain' text).1 with
  | list _ _ equal => exact equal

/-- A text that looks like the end of a list and the start of a word, in a list in a list. -/
theorem list_text_unambiguous_brackets :
    let items := [Value.list 1 [.text "\", null\"]"], .boolean true]
    let items' := [Value.list 4 [.text "\", null\"]"], .boolean true]
    (Value.list 2 items).Plain ∧ (Value.list 3 items').Plain ∧
      (Value.list 2 items).toText = (Value.list 3 items').toText ∧
      List.Forall₂ Equal items items' ∧
      (Value.list 2 items).toText = "[[\"\\\", null\\\"]\"], true]" := by
  have plain (i j : Nat) :
      (Value.list i [.list j [.text "\", null\"]"], .boolean true]).Plain := by
    refine .list i (List.forall_mem_cons.mpr
      ⟨.list j ?_, List.forall_mem_singleton.mpr (.boolean _)⟩)
    exact List.forall_mem_singleton.mpr (.text _)
  refine ⟨plain 2 1, plain 3 4, rfl, list_text_unambiguous (plain 2 1) (plain 3 4) rfl, ?_⟩
  decide +kernel

/-- What quoting is for: texts that are shown as they are, outside of lists, can be taken for a
list. -/
example : (Value.text "[true]").toText = (Value.list 0 [.boolean true]).toText := by decide +kernel

end ClassScript
