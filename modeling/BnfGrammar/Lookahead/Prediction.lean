import BnfGrammar.Lookahead.First
import BnfGrammar.Text.Listing
import Std.Data.ExtTreeMap

/-!
# Prediction tables

An alternative is predicted by what it begins with, and, if it may vanish, by what may follow its
left-hand side. The first alternative that is predicted by a lookahead gets the cell. Further ones
are listed as a conflict, which names all alternatives of the cell.
-/

namespace BnfGrammar

structure Conflict where
  nonterminal : String
  lookahead : Lookahead
  /-- The places of the alternatives, in ascending order. -/
  alternatives : List Nat
  deriving DecidableEq, Repr

namespace Conflict

def record (c : Conflict) : Log.Record :=
  let alternatives := Text.bracketed (c.alternatives.map fun i => s!"{i}")
  ⟨.warn, s!"[analysis] LL(1) conflict: {c.nonterminal} on {c.lookahead.text} between " ++
    s!"alternatives {alternatives}"⟩

end Conflict

structure PredictionTable where
  rows : ArrivalMap String (Std.ExtTreeMap Lookahead Nat) := ∅
  conflicts : List Conflict := []

/-! ## Predicting lookaheads -/

def SetTable.firstPlus (first follow : SetTable) (lhs : String) (alternative : Alternative) :
    LookaheadSet :=
  let begins := SetTable.firstOf first alternative
  if .epsilon ∈ begins then begins.erase .epsilon ∪ (follow.find? lhs).getD ∅ else begins

namespace PredictionTable

/-! ## Reading -/

def get? (t : PredictionTable) (nonterminal : String) (lookahead : Lookahead) : Option Nat := do
  (← t.rows.find? nonterminal)[lookahead]?

def isLL1 (t : PredictionTable) : Bool :=
  t.conflicts.isEmpty

/-! ## Filling -/

/-- Adds an alternative to the conflict of a cell, or starts the conflict with the alternative that
has the cell. -/
def noteClash (nonterminal : String) (lookahead : Lookahead) (holder alternative : Nat) :
    List Conflict → List Conflict
  | [] => [⟨nonterminal, lookahead, [holder, alternative]⟩]
  | c :: rest =>
      if c.nonterminal = nonterminal ∧ c.lookahead = lookahead then
        { c with alternatives := c.alternatives ++ [alternative] } :: rest
      else c :: noteClash nonterminal lookahead holder alternative rest

def enter (nonterminal : String) (alternative : Nat) (t : PredictionTable)
    (lookahead : Lookahead) : PredictionTable :=
  match t.get? nonterminal lookahead with
  | none =>
      { t with
        rows := t.rows.alter nonterminal fun row => (row.getD ∅).insert lookahead alternative }
  | some holder =>
      if holder = alternative then t
      else
        { t with conflicts := noteClash nonterminal lookahead holder alternative t.conflicts }

def enterAlternative (first follow : SetTable) (lhs : String) (t : PredictionTable)
    (alternative : Alternative × Nat) : PredictionTable :=
  (SetTable.firstPlus first follow lhs alternative.1).toList.foldl (enter lhs alternative.2) t

def enterRow (first follow : SetTable) (t : PredictionTable)
    (production : String × List Alternative) : PredictionTable :=
  let opened := { t with rows := t.rows.alter production.1 fun row => row.getD ∅ }
  production.2.zipIdx.foldl (enterAlternative first follow production.1) opened

def build (productions : Productions) (first follow : SetTable) : PredictionTable :=
  productions.toList.foldl (enterRow first follow) {}

def log (t : PredictionTable) : List Log.Record :=
  t.conflicts.map Conflict.record

end PredictionTable
end BnfGrammar
