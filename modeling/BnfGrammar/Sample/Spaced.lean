/-!
# Grammars with their blanks

Grammars as they are written, with the blanks before each sign and each name.
-/

namespace BnfGrammar
namespace Spaced

inductive Alternative
  | vanishing (gap keyword : String)
  /-- Names, each after a gap. -/
  | names (items : List (String × String))

def Alternative.text : Alternative → String
  | .vanishing gap keyword => gap ++ keyword
  | .names items => String.join (items.map fun item => item.1 ++ item.2)

structure ProductionSet where
  gap : String
  lhs : String
  colonGap : String
  first : Alternative
  /-- The further alternatives, each with the gap before its bar. -/
  others : List (String × Alternative)
  stopGap : String

def ProductionSet.text (set : ProductionSet) : String :=
  set.gap ++ set.lhs ++ set.colonGap ++ ":" ++ set.first.text ++
    String.join (set.others.map fun other => other.1 ++ "|" ++ other.2.text) ++ set.stopGap ++ ";"

structure Grammar where
  sets : List ProductionSet
  lastGap : String

def Grammar.text (g : Grammar) : String :=
  String.join (g.sets.map ProductionSet.text) ++ g.lastGap

end Spaced
end BnfGrammar
