import ClassScript.Token.Position
import ClassScript.Token.Rule

/-!
# From source text to tokens

At each place the first rule that applies takes its characters; blanks and comments are dropped. A
character at which no rule applies ends the scan. What has been read up to there is kept: the log
of a run shows it.
-/

namespace ClassScript

/-- A character at which no rule applies. -/
structure LexError where
  char : Char
  position : Position
  deriving DecidableEq

namespace LexError

def line (e : LexError) : Nat := e.position.line

def column (e : LexError) : Nat := e.position.column

def message (e : LexError) : String :=
  "Unknown symbol " ++ Text.quoted (String.singleton e.char) ++ " at line " ++ toString e.line ++
    ", offset " ++ toString e.position.offset

end LexError

/-- The tokens read, and what stopped the scan before the end of the source. -/
structure Scan where
  tokens : List Token
  error : Option LexError
  deriving DecidableEq

namespace Scan

/-- The token a rule makes of the characters it takes at `p`. -/
def tokenOf? (r : Rule) (p : Position) (text : List Char) : Option Token :=
  r.kind.map fun kind => ⟨kind, String.ofList text, p.line, p.column⟩

/-- Scans the text at `p`, of which the first `skip` characters belong to the latest token; `read`
holds the tokens so far, latest first. -/
def scanFrom (read : List Token) (p : Position) : Nat → List Char → Scan
  | _, [] => ⟨read.reverse, none⟩
  | skip + 1, c :: cs => scanFrom read (p.next c) skip cs
  | 0, c :: cs =>
    match Rule.first? (c :: cs) with
    | none => ⟨read.reverse, some ⟨c, p⟩⟩
    | some r =>
      let extent := r.extent (c :: cs)
      scanFrom ((tokenOf? r p ((c :: cs).take extent)).toList ++ read) (p.next c) (extent - 1) cs

theorem scanFrom_skip (read : List Token) (p : Position) (skip : Nat) (cs : List Char) :
    scanFrom read p skip cs = scanFrom read (p.advance (cs.take skip)) 0 (cs.drop skip) := by
  induction cs generalizing p skip with
  | nil => simp [scanFrom]
  | cons c cs ih =>
    cases skip with
    | zero => simp
    | succ skip => rw [scanFrom, ih]; rfl

end Scan

/-- Scans a whole source. -/
def scan (source : String) : Scan :=
  Scan.scanFrom [] .start 0 source.toList

/-- The tokens of a source in which a rule applies everywhere. -/
def tokenize (source : String) : Except LexError (List Token) :=
  match scan source with
  | ⟨tokens, none⟩ => .ok tokens
  | ⟨_, some e⟩ => .error e

end ClassScript
