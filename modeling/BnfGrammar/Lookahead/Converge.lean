import BnfGrammar.Lookahead.Basic

/-!
# Growing sets until nothing changes

Passes that only add to the sets of a table are repeated until one adds nothing, which counts too.
-/

namespace BnfGrammar
namespace SetTable

def converge (pass : SetTable → SetTable) : Nat → SetTable → SetTable × Nat
  | 0, table => (table, 0)
  | limit + 1, table =>
      let grown := pass table
      if grown = table then (table, 1)
      else
        let (final, passes) := converge pass limit grown
        (final, passes + 1)

/-- Adds lookaheads to the set of a name, if it has one. -/
def grow (table : SetTable) (name : String) (set : LookaheadSet) : SetTable :=
  table.adjust name (· ∪ set)

end SetTable
end BnfGrammar
