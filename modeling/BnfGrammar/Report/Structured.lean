import BnfGrammar.Json.Printer
import BnfGrammar.Report.Basic

/-!
# Reports for machines

The report as a JSON value. Lookaheads are written as the texts that are shown for them.
-/

namespace BnfGrammar

def Token.toJson (token : Token) : Json :=
  Json.ofFields
    [("value", Json.ofString token.value), ("type", Json.ofString token.kind.key),
      ("line", Json.ofWord token.line)]

def Tag.toJson : Tag → Json
  | .token k => Json.ofFields [("Token", Json.ofString k.key)]
  | .rule r => Json.ofFields [("Rule", Json.ofString r.key)]

mutual

def Node.toJson : Node → Json
  | .mk tag label children =>
      Json.ofFields
        [("label", Json.ofString label), ("tag", tag.toJson),
          ("children", .array (Node.allToJson children))]

def Node.allToJson : List Node → List Json
  | [] => []
  | n :: rest => n.toJson :: Node.allToJson rest

end

def LookaheadSet.toJson (set : LookaheadSet) : Json :=
  Json.ofStrings (set.toList.map Lookahead.text)

def SetTable.toJson (table : SetTable) : Json :=
  Json.ofFields (table.toList.map fun entry => (entry.1, LookaheadSet.toJson entry.2))

def Productions.toJson (productions : Productions) : Json :=
  Json.ofFields (productions.toList.map fun entry => (entry.1, .array (entry.2.map Json.ofStrings)))

def Analysis.toJson (a : Analysis) : Json :=
  Json.ofFields
    [("goal", match a.goal with
        | some name => Json.ofString name
        | none => .null),
      ("nonterminals", Json.ofStrings a.grammar.nonterminals.toList),
      ("terminals", Json.ofStrings a.grammar.terminals.toList),
      ("productions", Productions.toJson a.grammar.productions),
      ("first", SetTable.toJson a.first),
      ("follow", SetTable.toJson a.follow),
      ("first_passes", Json.ofNat a.firstPasses),
      ("follow_passes", Json.ofNat a.followPasses)]

def Conflict.toJson (c : Conflict) : Json :=
  Json.ofFields
    [("nonterminal", Json.ofString c.nonterminal),
      ("lookahead", Json.ofString c.lookahead.text),
      ("alternatives", .array (c.alternatives.map Json.ofNat))]

def PredictionTable.rowToJson (row : Std.ExtTreeMap Lookahead Nat) : Json :=
  Json.ofFields (row.toList.map fun cell => (cell.1.text, Json.ofNat cell.2))

def PredictionTable.toJson (t : PredictionTable) : Json :=
  Json.ofFields
    [("entries", Json.ofFields (t.rows.toList.map fun row => (row.1, rowToJson row.2))),
      ("conflicts", .array (t.conflicts.map Conflict.toJson))]

def Report.toJson (r : Report) (options : ReportOptions) : Json :=
  Json.ofFields
    ((if options.tokens then [("tokens", .array (r.tokens.map Token.toJson))] else []) ++
      (if options.tree then [("tree", r.tree.toJson)] else []) ++
      [("analysis", r.analysis.toJson), ("ll1", r.predictions.toJson)])

/-- The machine-readable text of a report. -/
def Report.structured (r : Report) (options : ReportOptions) : String :=
  (r.toJson options).pretty ++ "\n"

end BnfGrammar
