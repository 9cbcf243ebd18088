import BnfGrammar.SyntaxTree.Rule

/-!
# Syntax trees

In the trees of parsed texts words are childless and labelled by their text, and rules have an empty
label, but no operation relies on it. Trees are visited in pre-order with a stack of the nodes still
to be visited, each with a value inherited from its parent, such as its depth.
-/

namespace BnfGrammar

inductive Node where
  | mk (tag : Tag) (label : String) (children : List Node)

namespace Node

def tag : Node → Tag
  | mk tag _ _ => tag

def label : Node → String
  | mk _ label _ => label

def children : Node → List Node
  | mk _ _ children => children

def expansion (rule : Rule) (children : List Node) : Node :=
  mk (.rule rule) "" children

def word (kind : TokenKind) (text : String) : Node :=
  mk (.token kind) text []

def isWord (n : Node) : Bool :=
  match n.tag with
  | .token _ => true
  | .rule _ => false

/-! ## Size -/

mutual

def size : Node → Nat
  | mk _ _ children => sizeAll children + 1

def sizeAll : List Node → Nat
  | [] => 0
  | n :: rest => size n + sizeAll rest

end

/-! ## Visits -/

/-- The first `steps` visits from a stack of nodes with inherited values. The children of a node
inherit what `inherit` makes of the node and its own value. -/
def visitStack {β : Type} (inherit : β → Node → β) :
    Nat → List (β × Node) → List (β × Node)
  | 0, _ => []
  | _ + 1, [] => []
  | steps + 1, (value, n) :: stack =>
      let below := inherit value n
      (value, n) :: visitStack inherit steps (n.children.map (below, ·) ++ stack)

def visits {β : Type} (inherit : β → Node → β) (atRoot : β) (tree : Node) : List (β × Node) :=
  visitStack inherit tree.size [(atRoot, tree)]

def walk (tree : Node) : List Node :=
  (tree.visits (fun _ _ => ()) ()).map Prod.snd

def walkWithDepth (tree : Node) : List (Nat × Node) :=
  tree.visits (fun depth _ => depth + 1) 0

/-- The nodes of a tree in pre-order with the tags of their parents. The root is given the tag of
the rule for whole grammars. -/
def walkWithParent (tree : Node) : List (Tag × Node) :=
  tree.visits (fun _ parent => parent.tag) (.rule .grammar)

def leaves (tree : Node) : List Node :=
  tree.walk.filter isWord

def height (tree : Node) : Nat :=
  tree.walkWithDepth.foldl (fun highest entry => max highest (entry.1 + 1)) 0

/-! ## Comparison -/

def signature (n : Node) : Tag × String × Nat :=
  (n.tag, n.label, n.children.length)

instance : BEq Node :=
  ⟨fun a b => a.walk.map signature == b.walk.map signature⟩

end Node
end BnfGrammar
