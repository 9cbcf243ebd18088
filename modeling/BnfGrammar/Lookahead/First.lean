import BnfGrammar.Grammar.Basic
import BnfGrammar.Log
import BnfGrammar.Lookahead.Converge

/-!
# FIRST sets

The FIRST set of a symbol holds the terminals that its expansions may begin with, and the empty
lookahead if the symbol may vanish. The sets of nonterminals start empty and grow by their
alternatives until nothing changes.
-/

namespace BnfGrammar

/-- The FIRST set of a sequence of symbols: what its symbols begin with, up to the first that cannot
vanish. A symbol without a set ends the sequence and adds nothing. -/
def SetTable.firstOf (first : SetTable) : Alternative → LookaheadSet
  | [] => {.epsilon}
  | symbol :: rest =>
      match first.find? symbol with
      | none => ∅
      | some set =>
          if .epsilon ∈ set then set.erase .epsilon ∪ SetTable.firstOf first rest else set

def SetTable.firstOfAny (first : SetTable) (alternatives : List Alternative) : LookaheadSet :=
  alternatives.foldl (fun set alternative => set ∪ SetTable.firstOf first alternative) ∅

namespace Grammar

/-- The FIRST sets before the first pass. A name that is listed twice keeps the place of the first
listing and the set of the last. -/
def firstStart (g : Grammar) : SetTable :=
  let ofTerminals : SetTable :=
    g.terminals.toList.foldl (fun table name => table.insert name {.terminal name}) ∅
  let withEnd := ofTerminals.insert Lookahead.endMarker {.finish}
  g.nonterminals.toList.foldl (fun table name => table.insert name ∅) withEnd

def firstPass (g : Grammar) (first : SetTable) : SetTable :=
  g.productions.toList.foldl
    (fun table entry => SetTable.grow table entry.1 (SetTable.firstOfAny table entry.2)) first

/-- A bound on the passes: all but the last add to some set, the sets belong to the terminals, the
end marker and the nonterminals, and their members are terminals, the end and the empty
lookahead. -/
def firstLimit (g : Grammar) : Nat :=
  (g.terminals.size + 1 + g.nonterminals.size) * (g.terminals.size + 2) + 1

def firstSets (g : Grammar) : SetTable × Nat :=
  SetTable.converge g.firstPass g.firstLimit g.firstStart

def firstLog (passes : Nat) : Log.Record :=
  ⟨.debug, s!"[analysis] FIRST converged after {passes} passes"⟩

end Grammar
end BnfGrammar
