import BnfGrammar.Grammar.OfTree
import BnfGrammar.SyntaxTree.Node

/-!
# Pre-order by recursion

`Node.visits` visits a tree with a stack of the nodes still to be visited and as many steps as the
tree has nodes. Here the same order is defined by recursion on the tree, and the visits are shown to
be that order: a node comes before its children, and each child's tree comes before the next child.
The words of a tree and its contributions to a grammar can then be read off child by child.
-/

namespace BnfGrammar
namespace Node

variable {β : Type} {inherit : β → Node → β}

mutual

/-- The nodes of a tree in pre-order with their inherited values. -/
def preorder (inherit : β → Node → β) (value : β) : Node → List (β × Node)
  | mk tag label children =>
      (value, mk tag label children) ::
        preorderAll inherit (inherit value (mk tag label children)) children

/-- The nodes of a list of trees that inherit the same value. -/
def preorderAll (inherit : β → Node → β) (value : β) : List Node → List (β × Node)
  | [] => []
  | n :: rest => preorder inherit value n ++ preorderAll inherit value rest

end

theorem preorderAll_eq_flatMap (inherit : β → Node → β) (value : β) (children : List Node) :
    preorderAll inherit value children = children.flatMap (preorder inherit value) := by
  induction children with
  | nil => simp [preorderAll]
  | cons n rest ih => simp [preorderAll, ih]

theorem sizeAll_append (a b : List Node) : sizeAll (a ++ b) = sizeAll a + sizeAll b := by
  induction a with
  | nil => simp [sizeAll]
  | cons n rest ih => simp [sizeAll, ih, Nat.add_assoc]

/-- With enough steps the visits from a stack list the trees on it one after the other. -/
theorem visitStack_eq_flatMap :
    ∀ (steps : Nat) (stack : List (β × Node)), sizeAll (stack.map Prod.snd) ≤ steps →
      visitStack inherit steps stack =
        stack.flatMap fun entry => preorder inherit entry.1 entry.2 := by
  -- By induction on the steps, each of which takes the node on top off the stack.
  intro steps
  induction steps with
  | zero =>
      intro stack hsize
      cases stack with
      | nil => rfl
      | cons entry rest =>
          rcases entry with ⟨value, tag, label, children⟩
          simp [sizeAll, size] at hsize
  | succ steps ih =>
      intro stack hsize
      cases stack with
      | nil => rfl
      | cons entry rest =>
          rcases entry with ⟨value, tag, label, children⟩
          -- The children take the place of the visited node on the stack.
          have hbelow : ∀ below : β,
              sizeAll (((children.map (below, ·)) ++ rest).map Prod.snd) ≤ steps := by
            intro below
            have hchildren : (children.map fun n => (below, n)).map Prod.snd = children := by
              simp [Function.comp_def]
            simp only [List.map_append, hchildren, sizeAll_append]
            simp only [List.map_cons, sizeAll, size] at hsize
            omega
          have hrest := ih _ (hbelow (inherit value (mk tag label children)))
          simp only [visitStack, Node.children, hrest]
          simp [preorder, preorderAll_eq_flatMap, List.flatMap_map]

theorem visits_eq_preorder (inherit : β → Node → β) (value : β) (tree : Node) :
    tree.visits inherit value = preorder inherit value tree := by
  have hsize : sizeAll ([(value, tree)].map Prod.snd) ≤ tree.size := by
    simp [sizeAll]
  simpa [visits] using visitStack_eq_flatMap tree.size [(value, tree)] hsize

/-! ## Words -/

theorem leaves_eq_filter_preorder (tree : Node) :
    tree.leaves = ((preorder (fun _ _ => ()) () tree).map Prod.snd).filter isWord := by
  rw [leaves, walk, visits_eq_preorder]

@[simp]
theorem leaves_word (kind : TokenKind) (text : String) :
    (word kind text).leaves = [word kind text] := by
  simp [leaves_eq_filter_preorder, word, preorder, preorderAll, isWord, tag]

@[simp]
theorem leaves_expansion (rule : Rule) (children : List Node) :
    (expansion rule children).leaves = children.flatMap leaves := by
  rw [leaves_eq_filter_preorder, expansion, preorder, preorderAll_eq_flatMap]
  have hchildren : ((children.flatMap (preorder (fun _ _ => ()) ())).map Prod.snd).filter isWord =
      children.flatMap leaves := by
    induction children with
    | nil => rfl
    | cons n rest ih =>
        simp only [List.flatMap_cons, List.map_append, List.filter_append, ih]
        rw [leaves_eq_filter_preorder n]
  simpa [isWord, tag] using hchildren

/-! ## Contributions to a grammar -/

/-- The contributions of a tree below a parent. -/
def marksBelow (parent : Tag) (tree : Node) : List Mark :=
  (preorder (fun _ n => n.tag) parent tree).filterMap fun entry => Mark.ofNode? entry.1 entry.2

theorem marks_eq_marksBelow (tree : Node) : tree.marks = marksBelow (.rule .grammar) tree := by
  rw [marks, walkWithParent, visits_eq_preorder]
  rfl

theorem marksBelow_mk (parent tag : Tag) (label : String) (children : List Node) :
    marksBelow parent (mk tag label children) =
      (Mark.ofNode? parent (mk tag label children)).toList ++ children.flatMap (marksBelow tag) := by
  -- The children inherit the tag of the node as that of their parent.
  have hchildren : (children.flatMap (preorder (fun _ n => n.tag) tag)).filterMap
      (fun entry => Mark.ofNode? entry.1 entry.2) = children.flatMap (marksBelow tag) := by
    rw [List.filterMap_flatMap]
    rfl
  rw [marksBelow, preorder, preorderAll_eq_flatMap, List.filterMap_cons, ← hchildren]
  cases Mark.ofNode? parent (mk tag label children) with
  | none => simp [Node.tag]
  | some mark => simp [Node.tag]

end Node
end BnfGrammar
