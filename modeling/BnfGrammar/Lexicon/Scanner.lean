import BnfGrammar.Lexicon.Basic

/-!
# Scanners

A scanner cuts a text into tokens from left to right. It stops for good after the end of the input
or at the first place where no word begins. Positions count characters from 0 and lines from 1;
lines are 32-bit words.
-/

namespace BnfGrammar

/-! ## Failures -/

/-- No word begins at a position. The text is what stands there up to the next blank. -/
structure LexError where
  text : String
  cursor : Nat
  line : UInt32
  deriving DecidableEq, Repr

def LexError.message (e : LexError) : String :=
  s!"invalid input {Text.quoted e.text} at position {e.cursor}, line {e.line}"

/-! ## Scanners -/

def isBlank (c : Char) : Bool :=
  c = ' ' || c = '\t' || c = '\r' || c = '\n'

structure Scanner where
  lexicon : Lexicon
  rest : List Char
  cursor : Nat := 0
  line : UInt32 := 1
  /-- Whether the end of the input or a failure was handed out. -/
  finished : Bool := false

namespace Scanner

def ofText (lexicon : Lexicon) (text : String) : Scanner where
  lexicon := lexicon
  rest := text.toList

abbrev Outcome := Except LexError Token

def skipBlanks (s : Scanner) : Scanner :=
  let blanks := s.rest.takeWhile isBlank
  { s with
    rest := s.rest.dropWhile isBlank
    cursor := s.cursor + blanks.length
    line := s.line + UInt32.ofNat (blanks.count '\n') }

def failure (s : Scanner) : LexError where
  text := String.ofList (s.rest.takeWhile fun c => !isBlank c)
  cursor := s.cursor
  line := s.line

/-- Hands out what stands at the present position, which holds no blank. -/
def takeWord (s : Scanner) : Outcome × Scanner :=
  match s.rest with
  | [] => (.ok (Token.finish s.line), { s with finished := true })
  | rest =>
      match s.lexicon.match? rest with
      | some (length, kind) =>
          (.ok ⟨kind, String.ofList (rest.take length), s.line⟩,
            { s with rest := rest.drop length, cursor := s.cursor + length })
      | none => (.error s.failure, { s with finished := true })

/-- Hands out the next token or the failure, or nothing if the scanner has finished. -/
def next (s : Scanner) : Option Outcome × Scanner :=
  if s.finished then (none, s)
  else
    let (outcome, after) := s.skipBlanks.takeWord
    (some outcome, after)

/-! ## Whole runs -/

def outcomesWithin : Nat → Scanner → List Outcome
  | 0, _ => []
  | n + 1, s =>
      match s.next with
      | (none, _) => []
      | (some outcome, after) => outcome :: outcomesWithin n after

/-- All that a scanner still hands out. A step that does not finish the scanner reads at least one
character, so the steps are at most one more than the characters. -/
def outcomes (s : Scanner) : List Outcome :=
  outcomesWithin (s.rest.length + 1) s

def tokens (s : Scanner) : Except LexError (List Token) :=
  s.outcomes.mapM id

end Scanner

namespace Lexicon

def scan (lexicon : Lexicon) (text : String) : Except LexError (List Token) :=
  (Scanner.ofText lexicon text).tokens

end Lexicon

/-! ## Log -/

/-- The log of handing out a token or a failure. The end of the input is not told. -/
def Scanner.outcomeLog : Scanner.Outcome → List Log.Record
  | .ok token =>
      if token.value = "" then []
      else [⟨.trace, s!"[scan] line {token.line} {token.kind.name} {Text.quoted token.value}"⟩]
  | .error e => [⟨.debug, s!"[scan] {e.message}"⟩]

def Scanner.log (s : Scanner) : List Log.Record :=
  s.outcomes.flatMap Scanner.outcomeLog

end BnfGrammar
