import BnfGrammar.Token

/-!
# The rules of the grammar notation

The notation is itself described by a grammar of eight rules:

* `Grammar → ProductionList EOF`
* `ProductionList → ProductionSet ';' ProductionList'`
* `ProductionList' → ProductionSet ';' ProductionList' | ε` (before the end of the input)
* `ProductionSet → SYMBOL ':' RightHandSide ProductionSet'`
* `ProductionSet' → '|' RightHandSide ProductionSet' | ε` (before `;`)
* `RightHandSide → SymbolList | EPSILON`
* `SymbolList → SYMBOL SymbolList'`
* `SymbolList' → SYMBOL SymbolList' | ε` (before `;` or `|`)

The primed rules are tails: each of them lists what follows the first member of a sequence.
-/

namespace BnfGrammar

inductive Rule
  | grammar
  | productionList
  | productionListTail
  | productionSet
  | productionSetTail
  | rightHandSide
  | symbolList
  | symbolListTail
  deriving DecidableEq, Repr

namespace Rule

/-- The name of a rule in messages and dumps. -/
def name : Rule → String
  | .grammar => "Grammar"
  | .productionList => "ProductionList"
  | .productionListTail => "ProductionList'"
  | .productionSet => "ProductionSet"
  | .productionSetTail => "ProductionSet'"
  | .rightHandSide => "RightHandSide"
  | .symbolList => "SymbolList"
  | .symbolListTail => "SymbolList'"

/-- The name of a rule in logs and machine-readable reports. -/
def key : Rule → String
  | .grammar => "Grammar"
  | .productionList => "ProductionList"
  | .productionListTail => "ProductionListP"
  | .productionSet => "ProductionSet"
  | .productionSetTail => "ProductionSetP"
  | .rightHandSide => "RightHandSide"
  | .symbolList => "SymbolList"
  | .symbolListTail => "SymbolListP"

/-- The kinds of words before which a rule may stand for nothing. -/
def emptyBefore : Rule → List TokenKind
  | .productionListTail => [.endOfInput]
  | .productionSetTail => [.semicolon]
  | .symbolListTail => [.semicolon, .alsoDerives]
  | _ => []

end Rule

inductive Tag
  | token (kind : TokenKind)
  | rule (rule : Rule)
  deriving DecidableEq, Repr

def Tag.name : Tag → String
  | .token k => k.name
  | .rule r => r.name

end BnfGrammar
