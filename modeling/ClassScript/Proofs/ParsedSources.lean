import ClassScript.Eval.Import
import ClassScript.Proofs.Places

/-!
# How a source becomes a tree

A run scans and parses a source, and so does an import. What comes of it depends on the tokens of
the source alone: a tree, or the reason why there is none. Nothing but the debug log changes.
-/

namespace ClassScript

/-- What the debug log shows of tokens, latest first. -/
def tokenLog (env : Environment) (faces : List (TokenKind × String)) : List String :=
  if env.debug then
    (faces.map fun p => "Tokenized: " ++ p.1.label ++ " " ++ Text.quoted p.2).reverse
  else []

theorem logTokens_apply (env : Environment) (ts : List Token) (c : Context) :
    logTokens env ts c = (.ok ⟨⟩, { c with log := tokenLog env (ts.map Token.face) ++ c.log }) := by
  induction ts generalizing c with
  | nil =>
    cases hd : env.debug <;> simp only [tokenLog, hd] <;> rfl
  | cons t ts ih =>
    have step : logTokens env (t :: ts) = (Run.debug env fun _ =>
        "Tokenized: " ++ t.kind.label ++ " " ++ Text.quoted t.text) >>= fun _ =>
          logTokens env ts := rfl
    cases hd : env.debug <;>
      simp [step, Run.bind_apply, Run.debug, ih, tokenLog, hd, Token.face]

/-- How parsing ends a run that it does not let begin, given the active calls. -/
def parseEnd (calls : List String) : Except ParseFailure Program → Except Stop Program
  | .ok p => .ok p
  | .error (.unexpected e) => .error (.malformed (.parse e))
  | .error .tooDeep => .error (.overflow calls)

theorem tokenize_of_scan {source : String} {ts : List Token} (h : scan source = ⟨ts, none⟩) :
    tokenize source = .ok ts := by
  rw [tokenize, h]

theorem parseLogged_apply (env : Environment) {source : String} {ts : List Token}
    (hts : tokenize source = .ok ts) (c : Context) :
    parseLogged env source c = (parseEnd c.frame.calls (parseTokens env.syntaxDepth ts),
      { c with log := tokenLog env (ts.map Token.face) ++ c.log }) := by
  have scanned : scan source = ⟨ts, none⟩ := by
    rw [tokenize] at hts
    rcases hs : scan source with ⟨tokens, _ | e⟩ <;> rw [hs] at hts <;> cases hts
    rfl
  rw [parseLogged, scanned]
  dsimp only
  rw [Run.bind_apply, logTokens_apply]
  rcases parseTokens env.syntaxDepth ts with (e | _) | p <;> rfl

/-- Why a source has no tree, when its tokens have none. -/
def SourceFailure.ofParse : ParseFailure → SourceFailure
  | .unexpected e => .malformed (.parse e)
  | .tooDeep => .tooDeep

theorem parseSource_of_tokenize {source : String} {ts : List Token}
    (hts : tokenize source = .ok ts) (depth : Nat) :
    parseSource depth source = (parseTokens depth ts).mapError .ofParse := by
  rw [parseSource, hts]
  dsimp only
  rcases parseTokens depth ts with (e | _) | p <;> rfl

theorem parseSource_eq_ok {depth : Nat} {source : String} {p : Program}
    (h : parseSource depth source = .ok p) :
    ∃ ts, tokenize source = .ok ts ∧ parseTokens depth ts = .ok p := by
  cases hts : tokenize source with
  | error e => simp only [parseSource, hts] at h; cases h
  | ok ts =>
    refine ⟨ts, rfl, ?_⟩
    rw [parseSource_of_tokenize hts] at h
    cases hp : parseTokens depth ts with
    | error e => rw [hp] at h; cases h
    | ok p' => rw [hp] at h; cases h; rfl

end ClassScript
