import BnfGrammar.SyntaxTree.Node
import BnfGrammar.Text.Quoted

/-!
# Dumps of syntax trees

The nodes of a tree in pre-order, one on each line, indented by two blanks for each level.
-/

namespace BnfGrammar
namespace Node

def caption (n : Node) : String :=
  match n.tag with
  | .token kind => kind.name ++ " " ++ Text.quoted n.label
  | .rule rule => rule.name

def dumpLine (depth : Nat) (n : Node) : String :=
  String.ofList (List.replicate (2 * depth) ' ') ++ n.caption ++ "\n"

def dump (tree : Node) : String :=
  String.join (tree.walkWithDepth.map fun entry => entry.2.dumpLine entry.1)

end Node
end BnfGrammar
