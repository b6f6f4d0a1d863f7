import ClassScript.Proofs.ParsedSources
import ClassScript.Proofs.Retokenizing
import ClassScript.Value.Text

/-!
# Quoted texts are read back

A text inside a list is shown as a literal. Three definitions have to fit together for that literal
to stand for the text it shows: the one that writes it, which escapes quotes and backslashes and
nothing else; the lexical rule for literals, which lets a backslash take the next character along
unless that is a line feed; and the one that decodes a literal, which knows more escapes than are
ever written.

The first section says what the lexical rule takes of a written body, whatever stands behind it.
-/

namespace ClassScript

namespace Rule

/-- A written body is taken up to the quote behind it, and with that quote. -/
theorem stringBody_escapeBody (cs rest : List Char) :
    stringBody (Text.escapeBody cs ++ '"' :: rest) = some ((Text.escapeBody cs).length + 1) := by
  induction cs with
  | nil => rfl
  | cons c cs ih =>
    rw [Text.escapeBody, List.flatMap_cons, ← Text.escapeBody]
    by_cases hescape : c = '"' ∨ c = '\\'
    -- the backslash takes along a quote or a backslash, neither of which is a line feed
    · have hline : c ≠ '\n' := by
        rcases hescape with rfl | rfl <;> decide
      have written : (c == '"' || c == '\\') = true := by simpa using hescape
      rw [if_pos written, List.cons_append, List.singleton_append, List.cons_append,
        List.cons_append, stringBody, if_neg hline, ih]
      rfl
    · obtain ⟨hquote, hslash⟩ := not_or.mp hescape
      have written : ¬(c == '"' || c == '\\') = true := by simpa using hescape
      rw [if_neg written, List.singleton_append, List.cons_append, stringBody, ih]
      · rfl
      · exact hquote
      · exact fun hc => absurd hc hslash
      · exact fun _ _ hc => absurd hc hslash

/-- At a literal the rule for literals applies. -/
theorem first?_of_string {cs : List Char} (h : string ('"' :: cs) ≠ 0) :
    first? ('"' :: cs) = some ⟨some .string, string⟩ := by
  cases hfirst : first? ('"' :: cs) with
  | none =>
    have hzero := List.find?_eq_none.mp hfirst ⟨some .string, string⟩ (by simp [all])
    exact absurd h (by simpa using hzero)
  | some r =>
    have happlies := Nat.pos_iff_ne_zero.mp (extent_pos_of_first? hfirst)
    rw [eq_string_of_quote (List.mem_of_find?_eq_some hfirst) happlies]

end Rule

namespace Scan

/-- Wherever the literal for a text stands, the scan takes it as one token and goes on behind. -/
theorem scanFrom_literal (s : String) (rest : List Char) (read : List Token) (p : Position) :
    scanFrom read p 0 ((Text.literal s).toList ++ rest) =
      scanFrom (⟨.string, Text.literal s, p.line, p.column⟩ :: read)
        (p.advance (Text.literal s).toList) 0 rest := by
  -- the characters get a name, so that no step below computes them
  obtain ⟨lexeme, hlexeme⟩ : ∃ lexeme, (Text.literal s).toList = lexeme := ⟨_, rfl⟩
  have text : String.ofList lexeme = Text.literal s := by rw [← hlexeme, String.ofList_toList]
  have chars : lexeme = '"' :: (Text.escapeBody s.toList ++ ['"']) := by
    rw [← hlexeme, Text.literal, String.toList_ofList]
  have extent : Rule.string (lexeme ++ rest) = lexeme.length := by
    rw [chars, List.cons_append, List.append_assoc, List.singleton_append, Rule.string,
      Rule.stringBody_escapeBody]
    simp
  have applies : Rule.first? (lexeme ++ rest) = some ⟨some .string, Rule.string⟩ := by
    rw [chars, List.cons_append] at extent ⊢
    refine Rule.first?_of_string ?_
    rw [extent]
    simp
  rw [hlexeme, scanFrom_rule applies extent]
  simp [tokenOf?, text]

end Scan

namespace Parser

theorem expression_string (depth : Nat) (text : String) (line column : Nat) :
    expression (depth + 1) [⟨.string, text, line, column⟩] =
      .ok (.text (Text.unescape text) line, []) :=
  rfl

theorem program_string (depth : Nat) (text : String) (line column : Nat) :
    program (depth + 2) [⟨.string, text, line, column⟩] =
      .ok (⟨[.simple (.expr (.text (Text.unescape text) line) line)]⟩, []) :=
  rfl

end Parser

/-- What is shown of a text inside a list is one token, a literal. The text is what that literal
decodes to, and so what it stands for as an expression and as a script. -/
theorem nestedText_reads_back (s : String) :
    tokenize (Value.text s).nestedText = .ok [⟨.string, (Value.text s).nestedText, 1, 1⟩] ∧
    Text.unescape (Value.text s).nestedText = s ∧
    ∀ depth,
      Parser.expression (depth + 1) [⟨.string, (Value.text s).nestedText, 1, 1⟩] =
        .ok (.text s 1, []) ∧
      parseSource (depth + 2) (Value.text s).nestedText =
        .ok ⟨[.simple (.expr (.text s 1) 1)]⟩ := by
  have shown : (Value.text s).nestedText = Text.literal s := by rw [Value.nestedText]
  rw [shown]
  have decoded := Text.unescape_literal s
  have scanned : scan (Text.literal s) = ⟨[⟨.string, Text.literal s, 1, 1⟩], none⟩ := by
    have whole := Scan.scanFrom_literal s [] [] Position.start
    rw [List.append_nil] at whole
    exact whole
  have tokens := tokenize_eq_ok_iff.mpr scanned
  refine ⟨tokens, decoded, fun depth => ⟨?_, ?_⟩⟩
  · rw [Parser.expression_string, decoded]
  · have program := Parser.program_string depth (Text.literal s) 1 1
    rw [decoded] at program
    rw [parseSource_of_tokenize tokens, parseTokens, program]
    rfl

/-- Three backslashes before a quote, a line feed, and a backslash at the end. -/
example : (Value.text "\\\\\\\"\n\\").nestedText = "\"\\\\\\\\\\\\\\\"\n\\\\\"" := by decide +kernel

end ClassScript
