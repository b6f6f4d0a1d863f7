/-!
# String literals

A literal stands between double quotes. `\n`, `\t`, `\r`, `\"` and `\\` are escapes; before any
other character a backslash stands for itself. Writing escapes only the quote and the backslash.
-/

namespace ClassScript.Text

/-- The character an escape stands for. -/
def escaped? : Char → Option Char
  | 'n' => some '\n'
  | 't' => some '\t'
  | 'r' => some '\r'
  | '"' => some '"'
  | '\\' => some '\\'
  | _ => none

/-- Decodes the escapes of a literal's body; a backslash at its end stands for itself. -/
def unescapeBody : List Char → List Char
  | [] => []
  | '\\' :: c :: cs =>
    match escaped? c with
    | some d => d :: unescapeBody cs
    | none => '\\' :: c :: unescapeBody cs
  | c :: cs => c :: unescapeBody cs

/-- The text of a literal: its first and last character are dropped, whatever they are. -/
def unescape (literal : String) : String :=
  String.ofList (unescapeBody (literal.toList.drop 1).dropLast)

def escapeBody (cs : List Char) : List Char :=
  cs.flatMap fun c => if c == '"' || c == '\\' then ['\\', c] else [c]

/-- A literal for the text. -/
def literal (s : String) : String :=
  String.ofList ('"' :: (escapeBody s.toList ++ ['"']))

theorem unescapeBody_escapeBody (cs : List Char) : unescapeBody (escapeBody cs) = cs := by
  induction cs with
  | nil => rfl
  | cons c cs ih =>
    rw [escapeBody, List.flatMap_cons, ← escapeBody]
    by_cases hquote : c = '"'
    · subst hquote
      exact congrArg ('"' :: ·) ih
    by_cases hslash : c = '\\'
    · subst hslash
      exact congrArg ('\\' :: ·) ih
    · simp only [hquote, hslash, beq_iff_eq, Bool.or_eq_true, or_self, if_false,
        List.singleton_append]
      rw [unescapeBody, ih]
      rintro d ds rfl
      exact absurd rfl hslash

/-- A text can be read back from its literal. -/
theorem unescape_literal (s : String) : unescape (literal s) = s := by
  rw [unescape, literal, String.toList_ofList, List.drop_one, List.tail_cons,
    List.dropLast_concat, unescapeBody_escapeBody, String.ofList_toList]

/-- A literal starts with a quote. -/
theorem literal_ne_symbol (s : String) : literal s ≠ "(" ∧ literal s ≠ "=" ∧ literal s ≠ "." := by
  refine ⟨?_, ?_, ?_⟩ <;> intro h <;> simpa [literal] using congrArg String.toList h

example : unescape "\"a\\n\\q\\\"\"" = "a\n\\q\"" := by decide +kernel

end ClassScript.Text
