import BnfGrammar.Grammar.OfTree
import BnfGrammar.Lookahead.First
import BnfGrammar.Lookahead.Follow
import BnfGrammar.Lookahead.Prediction

/-!
# Analyses

All that is found out about a grammar: its goal, its FIRST and FOLLOW sets and its prediction
table.
-/

namespace BnfGrammar

structure Analysis where
  goal : Option String
  grammar : Grammar
  first : SetTable
  follow : SetTable
  firstPasses : Nat
  followPasses : Nat

namespace Analysis

/-- Analyses a grammar. Its goal is the first left-hand side. -/
def ofGrammar (g : Grammar) : Analysis :=
  let (first, firstPasses) := g.firstSets
  let (follow, followPasses) := g.followSets first g.goal?
  { goal := g.goal?
    grammar := g
    first := first
    follow := follow
    firstPasses := firstPasses
    followPasses := followPasses }

def ofTree (tree : Node) : Analysis :=
  ofGrammar (Grammar.ofTree tree)

/-! ## Questions -/

def first? (a : Analysis) (symbol : String) : Option LookaheadSet :=
  a.first.find? symbol

def follow? (a : Analysis) (symbol : String) : Option LookaheadSet :=
  a.follow.find? symbol

def firstOf (a : Analysis) (symbols : List String) : LookaheadSet :=
  SetTable.firstOf a.first symbols

def firstPlus (a : Analysis) (lhs : String) (alternative : Alternative) : LookaheadSet :=
  SetTable.firstPlus a.first a.follow lhs alternative

def isNullable (a : Analysis) (symbol : String) : Bool :=
  (a.first? symbol).any fun set => set.contains .epsilon

def nullable (a : Analysis) : List String :=
  a.grammar.nonterminals.toList.filter a.isNullable

def predictions (a : Analysis) : PredictionTable :=
  PredictionTable.build a.grammar.productions a.first a.follow

/-! ## Log -/

def log (a : Analysis) : List Log.Record :=
  let goal :=
    match a.goal with
    | some name => s!"Some({Text.quoted name})"
    | none => "None"
  let nonterminals := a.grammar.nonterminals.size
  let terminals := a.grammar.terminals.size
  [Grammar.firstLog a.firstPasses, Grammar.followLog a.followPasses,
    ⟨.debug, s!"[analysis] |NT|={nonterminals} |T|={terminals} goal={goal}"⟩]

def ofTreeLog (tree : Node) : List Log.Record :=
  Grammar.ofTreeLog tree ++ (ofTree tree).log

end Analysis
end BnfGrammar
