import BnfGrammar.Automaton.Basic

/-!
# Reachable states

The states that can be reached from the start, in breadth-first order, which decides in which order
labels are met. An edge puts its target into the queue only when its source is visited, and a state
is visited once, so `edges.length + 1` steps empty the queue.
-/

namespace BnfGrammar
namespace Automaton

/-- Visits the waiting states in turn, skipping those that were visited before. -/
def visit (a : Automaton) : Nat → List StateId → List StateId → List StateId
  | 0, _, visited => visited
  | _ + 1, [], visited => visited
  | steps + 1, state :: waiting, visited =>
      if state ∈ visited then a.visit steps waiting visited
      else a.visit steps (waiting ++ a.neighbors state) (visited ++ [state])

def reach (a : Automaton) : List StateId :=
  a.visit (a.edges.length + 1) [start] []

def reachableEdges (a : Automaton) : List Edge :=
  a.reach.flatMap a.edgesFrom

end Automaton
end BnfGrammar
