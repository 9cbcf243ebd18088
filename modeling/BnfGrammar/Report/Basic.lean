import BnfGrammar.Source

/-!
# Reports

A report gathers what is shown about a grammar: its tokens, its syntax tree, its analysis and its
prediction table. Tokens and tree are shown on request.
-/

namespace BnfGrammar

structure ReportOptions where
  tokens : Bool := false
  tree : Bool := false
  /-- Whether the report is written for machines. -/
  json : Bool := false
  deriving DecidableEq, Repr

structure Report where
  tokens : List Token
  tree : Node
  analysis : Analysis
  predictions : PredictionTable

def Report.ofTree (tokens : List Token) (tree : Node) : Report :=
  let analysis := Analysis.ofTree tree
  { tokens := tokens
    tree := tree
    analysis := analysis
    predictions := analysis.predictions }

end BnfGrammar
