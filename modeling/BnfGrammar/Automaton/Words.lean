import BnfGrammar.Automaton.Basic
import BnfGrammar.Text.LetterCase

/-!
# The automata of the grammar notation

Three shapes of automata are enough: a single character, a keyword in any mix of cases, and a run of
letters and digits. The keyword stands before the general name, so that it wins where both match.
-/

namespace BnfGrammar
namespace Automaton

def single (c : Char) : Automaton :=
  ((empty.addState 0 .passing).addState 1 .accepting).addEdge 0 1 (String.singleton c)

/-! ## Keywords -/

/-- The characters accepted for a letter of a keyword: those of its uppercase form, then those of
its lowercase form that are not there yet. -/
def caseVariants (c : Char) : List Char :=
  (Text.lowerForm c).foldl
    (fun label lower => if label.contains lower then label else label ++ [lower])
    (Text.upperForm c)

def addLetter (n : Nat) (a : Automaton) (letter : Char × Nat) : Automaton :=
  let next := letter.2 + 1
  (a.addState (UInt32.ofNat next) (if next = n then .accepting else .passing)).addEdge
    (UInt32.ofNat letter.2) (UInt32.ofNat next) (String.ofList (caseVariants letter.1))

/-- Reads the letters of `word` one after the other, each in any case. -/
def keyword (word : String) : Automaton :=
  word.toList.zipIdx.foldl (addLetter word.length) (empty.addState start .passing)

/-! ## Names -/

def nameCharacters : String :=
  "abcdefghijklmnopqrstuvwxyzABCDEFGHIJKLMNOPQRSTUVWXYZ0123456789"

def name : Automaton :=
  (((empty.addState 0 .passing).addState 1 .accepting).addEdge 0 1 nameCharacters).addEdge
    1 1 nameCharacters

/-! ## The notation -/

def semicolon : Automaton :=
  single ';'

def derives : Automaton :=
  single ':'

def alsoDerives : Automaton :=
  single '|'

def epsilon : Automaton :=
  keyword "EPSILON"

/-- The automata of the grammar notation in the order in which they are tried. -/
def grammarWords : List (TokenKind × Automaton) :=
  [(.semicolon, semicolon), (.derives, derives), (.alsoDerives, alsoDerives), (.epsilon, epsilon),
    (.symbol, name)]

end Automaton
end BnfGrammar
