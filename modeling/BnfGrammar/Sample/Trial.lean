import BnfGrammar.Sample.Draw
import BnfGrammar.Source
import BnfGrammar.Text.Digits

/-!
# Trials

A trial puts a text through the whole way from scanner to analysis and checks what should hold of
every text that describes a grammar: the end of the input comes once and last, the words rejoined by
single blanks scan to the same words, the leaves of the tree are the words, and a second analysis
finds the same sets.
-/

namespace BnfGrammar
namespace Trial

/-! ## One trial -/

inductive Failure
  | scan (e : LexError)
  | endCount (count : Nat)
  | rescan (e : LexError)
  | diverged
  | parse (e : ParseError)
  | leaves
  | unstable
  deriving DecidableEq, Repr

def Failure.message : Failure → String
  | .scan e => s!"scan: {e.message}"
  | .endCount count => s!"expected exactly one trailing EOF, got {count}"
  | .rescan e => s!"rescan: {e.message}"
  | .diverged => "rescan of rejoined lexemes diverged"
  | .parse e => s!"parse: {e.message}"
  | .leaves => "tree leaves do not match the token stream"
  | .unstable => "analysis is not deterministic"

/-- What two scans of the same words agree on. -/
def content (tokens : List Token) : List (TokenKind × String) :=
  tokens.map fun token => (token.kind, token.value)

def endCount (tokens : List Token) : Nat :=
  tokens.countP fun token => token.kind = .endOfInput

def check (lexicon : Lexicon) (text : String) : Except Failure Unit := do
  let tokens ← (lexicon.scan text).mapError .scan
  if endCount tokens ≠ 1 ∨ tokens.getLast?.map Token.kind ≠ some .endOfInput then
    throw (.endCount (endCount tokens))
  let again ← (lexicon.scan (" ".intercalate (tokens.map Token.value))).mapError .rescan
  if content tokens ≠ content again then
    throw .diverged
  let tree ← (Node.parse tokens).mapError .parse
  if tree.leaves.map Node.label ≠ tokens.map Token.value then
    throw .leaves
  let analysis := Analysis.ofTree tree
  let second := Analysis.ofTree tree
  if analysis.first ≠ second.first ∨ analysis.follow ≠ second.follow then
    throw .unstable

/-! ## Series of trials -/

/-- How many trials are run, on grammars of how many sets, and with which seed first. -/
structure Settings where
  seed : UInt64 := 42
  count : UInt64 := 200
  sets : UInt64 := 12

/-- Reads a 64-bit number: decimal digits after an optional plus sign. -/
def readNumber? (s : String) : Option UInt64 := do
  let digits :=
    match s.toList with
    | '+' :: rest => rest
    | all => all
  let value ← Text.natural? digits
  if value < 18446744073709551616 then some (UInt64.ofNat value) else none

/-- The settings that result from three texts, of which each that is missing or no number is
replaced by its default. -/
def Settings.ofTexts (seed count sets : Option String) : Settings :=
  let defaults : Settings := {}
  { seed := (seed.bind readNumber?).getD defaults.seed
    count := (count.bind readNumber?).getD defaults.count
    sets := (sets.bind readNumber?).getD defaults.sets }

def sample (sets : Nat) (seed : UInt64) : String :=
  Sample.text WordSource.chooser sets (.mixed seed)

/-- The failures of `n` trials with successive seeds, each with its seed. -/
def failures (lexicon : Lexicon) (sets : Nat) : Nat → UInt64 → List (UInt64 × Failure)
  | 0, _ => []
  | n + 1, seed =>
      let later := failures lexicon sets n (seed + 1)
      match check lexicon (sample sets seed) with
      | .ok _ => later
      | .error failure => (seed, failure) :: later

end Trial
end BnfGrammar
