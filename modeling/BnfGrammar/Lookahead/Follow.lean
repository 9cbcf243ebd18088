import BnfGrammar.Grammar.Basic
import BnfGrammar.Log
import BnfGrammar.Lookahead.Converge

/-!
# FOLLOW sets

The FOLLOW set of a nonterminal holds what may come after it. An alternative is read from right to
left with a trailer, the set of what may come after the symbols read so far. The trailer starts as
the FOLLOW set of the left-hand side, and a nonterminal takes it in.
-/

namespace BnfGrammar
namespace Grammar

/-- What may come before a symbol's right neighbours: the trailer after reading the symbol. -/
def trailerBefore (g : Grammar) (first : SetTable) (symbol : String) (trailer : LookaheadSet) :
    LookaheadSet :=
  let begins := (first.find? symbol).getD ∅
  if symbol ∈ g.nonterminals ∧ .epsilon ∈ begins then trailer ∪ begins.erase .epsilon else begins

def followSymbol (g : Grammar) (first : SetTable) (symbol : String)
    (state : SetTable × LookaheadSet) : SetTable × LookaheadSet :=
  let table := if symbol ∈ g.nonterminals then SetTable.grow state.1 symbol state.2 else state.1
  (table, g.trailerBefore first symbol state.2)

def followAlternative (g : Grammar) (first : SetTable) (lhs : String) (follow : SetTable)
    (alternative : Alternative) : SetTable :=
  (alternative.foldr (g.followSymbol first) (follow, (follow.find? lhs).getD ∅)).1

def followPass (g : Grammar) (first follow : SetTable) : SetTable :=
  g.productions.toList.foldl
    (fun table entry => entry.2.foldl (g.followAlternative first entry.1) table) follow

def followStart (g : Grammar) (goal : Option String) : SetTable :=
  let empty : SetTable := g.nonterminals.toList.foldl (fun table name => table.insert name ∅) ∅
  match goal with
  | some name => SetTable.grow empty name {.finish}
  | none => empty

/-- A bound on the passes: all but the last add to some set, the sets belong to the nonterminals,
and their members are the end of the input and members of FIRST sets. -/
def followLimit (g : Grammar) (first : SetTable) : Nat :=
  g.nonterminals.size * (first.toList.foldl (fun total entry => total + entry.2.size) 0 + 1) + 1

def followSets (g : Grammar) (first : SetTable) (goal : Option String) : SetTable × Nat :=
  SetTable.converge (g.followPass first) (g.followLimit first) (g.followStart goal)

def followLog (passes : Nat) : Log.Record :=
  ⟨.debug, s!"[analysis] FOLLOW converged after {passes} passes"⟩

end Grammar
end BnfGrammar
