import BnfGrammar.Table.Basic

/-!
# Longest matches

The kind of a match is read off the state where the longest accepted beginning ends. If that state
has no kind there is no match, and no shorter beginning is tried.
-/

namespace BnfGrammar
namespace Table

/-- The length of the longest non-empty beginning of the text that leads from a state to an
accepting one, and the state where it ends. -/
def longest (t : Table) : StateId → List Char → Option (Nat × StateId)
  | _, [] => none
  | state, c :: rest =>
      match t.step state c with
      | none => none
      | some next =>
          match t.longest next rest with
          | some (length, last) => some (length + 1, last)
          | none => if t.isAccepting next then some (1, next) else none

def match? (t : Table) (text : List Char) : Option (Nat × TokenKind) := do
  let (length, last) ← t.longest Automaton.start text
  let kind ← t.tokenAt last
  return (length, kind)

end Table
end BnfGrammar
