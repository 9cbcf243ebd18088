import BnfGrammar.Report.Basic
import BnfGrammar.SyntaxTree.Dump

/-!
# Reports for readers

The report as a plain text, line by line.
-/

namespace BnfGrammar
namespace Report

def unlines (lines : List String) : String :=
  String.join (lines.map (· ++ "\n"))

def setText (set : LookaheadSet) : String :=
  "\x7b" ++ ", ".intercalate (set.toList.map Lookahead.text) ++ "\x7d"

def tokenLine (token : Token) : String :=
  "  " ++ Text.padLeft 4 (toString token.line.toNat) ++ "  " ++ Text.padRight 12 token.kind.name ++
    " " ++ Text.quoted token.value

def productionLines (entry : String × List Alternative) : List String :=
  entry.2.zipIdx.map fun (alternative, i) =>
    let rhs := if alternative.isEmpty then "EPSILON" else " ".intercalate alternative
    s!"  [{i}] {entry.1} -> {rhs}"

/-- The lines of the sets of some names; a name without a set is left out. -/
def setLines (table : SetTable) (names : List String) : List String :=
  names.filterMap fun name =>
    (table.find? name).map fun set => "  " ++ Text.padRight 16 name ++ " " ++ setText set

def rowLines (row : String × Std.ExtTreeMap Lookahead Nat) : List String :=
  row.2.toList.map fun (lookahead, alternative) =>
    s!"  M[{row.1}, {lookahead.text}] = {alternative}"

def conflictLine (c : Conflict) : String :=
  let alternatives := Text.bracketed (c.alternatives.map fun i => s!"{i}")
  s!"  conflict: {c.nonterminal} on {c.lookahead.text} between {alternatives}"

def analysisLines (a : Analysis) (t : PredictionTable) : List String :=
  let nonterminals := a.grammar.nonterminals.toList
  let terminals := a.grammar.terminals.toList
  ["goal: " ++ a.goal.getD "-", "NT: " ++ " ".intercalate nonterminals,
      "T:  " ++ " ".intercalate terminals, "", "productions:"] ++
    a.grammar.productions.toList.flatMap productionLines ++
    ["", "FIRST:"] ++ setLines a.first nonterminals ++
    ["", "FOLLOW:"] ++ setLines a.follow nonterminals ++
    ["", "LL(1) table:"] ++ t.rows.toList.flatMap rowLines ++ t.conflicts.map conflictLine

def plain (r : Report) (options : ReportOptions) : String :=
  (if options.tokens then unlines ("TOKENS:" :: r.tokens.map tokenLine ++ [""]) else "") ++
    (if options.tree then "TREE:\n" ++ r.tree.dump ++ "\n" else "") ++
    unlines (analysisLines r.analysis r.predictions)

end Report
end BnfGrammar
