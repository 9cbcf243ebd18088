import BnfGrammar.Collections.ArrivalMap
import BnfGrammar.Collections.ArrivalSet

/-!
# Grammars

The names and the alternatives of a context-free grammar, in the order of their first occurrence. An
empty alternative is an empty list of names. Nothing requires consistency: a name may be in both
lists or in neither, and a left-hand side need not be a nonterminal.
-/

namespace BnfGrammar

abbrev Alternative := List String

abbrev Productions := ArrivalMap String (List Alternative)

structure Grammar where
  nonterminals : ArrivalSet String := ∅
  terminals : ArrivalSet String := ∅
  productions : Productions := ∅
  deriving DecidableEq

def Grammar.goal? (g : Grammar) : Option String :=
  g.productions.keys.head?

end BnfGrammar
