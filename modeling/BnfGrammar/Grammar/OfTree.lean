import BnfGrammar.Grammar.Basic
import BnfGrammar.Log
import BnfGrammar.SyntaxTree.Node
import BnfGrammar.Text.Listing
import BnfGrammar.Text.Quoted

/-!
# The grammar of a syntax tree

Three kinds of nodes matter, and they are met in pre-order. A name directly below a set of
productions is its left-hand side, and any other belongs to the alternative at hand. The tail of a
set ends the alternative at hand. Names that are no left-hand side anywhere are terminals.
-/

namespace BnfGrammar

/-! ## Marks -/

inductive Mark
  | head (name : String)
  | item (name : String)
  | close
  deriving DecidableEq, Repr

def Mark.ofNode? (parent : Tag) (n : Node) : Option Mark :=
  match n.tag with
  | .token .symbol =>
      if parent = .rule .productionSet then some (.head n.label) else some (.item n.label)
  | .rule .productionSetTail => some .close
  | _ => none

def Node.marks (tree : Node) : List Mark :=
  tree.walkWithParent.filterMap fun entry => Mark.ofNode? entry.1 entry.2

/-! ## Drafts -/

namespace Grammar

structure Draft where
  lhs : String := ""
  rhs : Alternative := []
  /-- The names met in alternatives. -/
  names : ArrivalSet String := ∅
  nonterminals : ArrivalSet String := ∅
  productions : Productions := ∅

namespace Draft

def read (d : Draft) : Mark → Draft
  | .head name =>
      { d with
        lhs := name
        nonterminals := d.nonterminals.insert name
        productions := d.productions.alter name fun found => found.getD [] }
  | .item name =>
      { d with
        names := d.names.insert name
        rhs := d.rhs ++ [name] }
  | .close =>
      { d with
        rhs := []
        productions := d.productions.alter d.lhs fun found => found.getD [] ++ [d.rhs] }

def finish (d : Draft) : Grammar where
  nonterminals := d.nonterminals
  terminals := d.names.filter fun name => !decide (name ∈ d.nonterminals)
  productions := d.productions

def readLog (d : Draft) : Mark → List Log.Record
  | .head name => [⟨.trace, s!"[classify] lhs {name}"⟩]
  | .item _ => []
  | .close =>
      let rhs := Text.bracketed (d.rhs.map Text.quoted)
      [⟨.trace, s!"[classify] {d.lhs} -> {rhs}"⟩]

def readAllLog : Draft → List Mark → List Log.Record
  | _, [] => []
  | d, mark :: rest => d.readLog mark ++ readAllLog (d.read mark) rest

end Draft

def ofTree (tree : Node) : Grammar :=
  (tree.marks.foldl Draft.read {}).finish

def ofTreeLog (tree : Node) : List Log.Record :=
  Draft.readAllLog {} tree.marks

end Grammar
end BnfGrammar
