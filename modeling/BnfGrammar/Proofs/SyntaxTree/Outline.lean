import BnfGrammar.Proofs.SyntaxTree.Derivation
import BnfGrammar.Proofs.SyntaxTree.Preorder

/-!
# Outlines of grammar texts

An outline is what a grammar text says, with the text of every word: production sets, each with a
left-hand side and its sides. An outline has a list of words and a tree. This file shows that

* the trees of outlines are exactly the derivation trees of the notation;
* the leaves of the tree of an outline are its words, in order.
-/

namespace BnfGrammar
namespace Outline

/-- A word of a text: its kind and its text. -/
abbrev Word := TokenKind × String

/-- The leaf of a word. -/
def Word.leaf (w : Word) : Node :=
  Node.word w.1 w.2

/-! ## Sides and blocks -/

/-- The right-hand side of a production with the text of its words. -/
inductive Side
  | empty (text : String)
  | names (first : String) (others : List String)

namespace Side

def words : Side → List Word
  | empty text => [(.epsilon, text)]
  | names first others => (first :: others).map (.symbol, ·)

/-- The tree below the expansion of a right-hand side. -/
def content : Side → Node
  | empty text => Node.word .epsilon text
  | names first others =>
      Node.expansion .symbolList
        [Node.word .symbol first,
          Node.nest .symbolListTail (others.map fun name => [Node.word .symbol name])]

def tree (s : Side) : Node :=
  Node.expansion .rightHandSide [s.content]

/-- The alternative that a side stands for. -/
def alternative : Side → Alternative
  | empty _ => []
  | names first others => first :: others

end Side

/-- A production set with the text of its words, up to its semicolon. -/
structure Block where
  head : String
  colon : String
  first : Side
  /-- The sides after the first, each with the text of the bar before it. -/
  others : List (String × Side)
  stop : String

namespace Block

/-- The words before the semicolon. -/
def opening (b : Block) : List Word :=
  (.symbol, b.head) :: (.derives, b.colon) :: b.first.words ++
    b.others.flatMap fun other => (.alsoDerives, other.1) :: other.2.words

def words (b : Block) : List Word :=
  b.opening ++ [(.semicolon, b.stop)]

/-- The tree of the production set, without the semicolon. -/
def tree (b : Block) : Node :=
  Node.expansion .productionSet
    [Node.word .symbol b.head, Node.word .derives b.colon, b.first.tree,
      Node.nest .productionSetTail
        (b.others.map fun other => [Node.word .alsoDerives other.1, other.2.tree])]

/-- The sides of a production set. -/
def sides (b : Block) : List Side :=
  b.first :: b.others.map Prod.snd

end Block
end Outline

open Outline in
/-- What a grammar text says. -/
structure Outline where
  first : Block
  others : List Block

namespace Outline

/-- The production sets. -/
def blocks (o : Outline) : List Block :=
  o.first :: o.others

/-- The words of a text before its end. -/
def words (o : Outline) : List Word :=
  o.blocks.flatMap Block.words

/-- The words of a text as tokens, all on the first line. -/
def tokens (o : Outline) : List Token :=
  o.words.map fun w => ⟨w.1, w.2, 1⟩

/-- The tree of the production sets. -/
def list (o : Outline) : Node :=
  Node.expansion .productionList
    [o.first.tree, Node.word .semicolon o.first.stop,
      Node.nest .productionListTail
        (o.others.map fun b => [b.tree, Node.word .semicolon b.stop])]

/-- The tree of a text that ends in a word with the given text. -/
def tree (o : Outline) (stop : String) : Node :=
  Node.expansion .grammar [o.list, Node.word .endOfInput stop]

theorem Side.kind_ne_endOfInput (s : Side) : ∀ w ∈ s.words, w.1 ≠ .endOfInput := by
  cases s <;> simp [Side.words]

theorem Block.kind_ne_endOfInput (b : Block) : ∀ w ∈ b.words, w.1 ≠ .endOfInput := by
  intro w hw
  simp only [Block.words, Block.opening, List.mem_append, List.mem_cons, List.mem_flatMap,
    List.not_mem_nil, or_false] at hw
  rcases hw with ((rfl | rfl | hfirst) | ⟨other, _, rfl | hother⟩) | rfl
  · simp
  · simp
  · exact b.first.kind_ne_endOfInput w hfirst
  · simp
  · exact other.2.kind_ne_endOfInput w hother
  · simp

/-- The end of the input is no word of a text. -/
theorem kind_ne_endOfInput (o : Outline) : ∀ w ∈ o.words, w.1 ≠ .endOfInput := by
  intro w hw
  rcases List.mem_flatMap.1 hw with ⟨b, _, hb⟩
  exact b.kind_ne_endOfInput w hb

theorem Side.kind_of_mem (s : Side) : ∀ w ∈ s.words, w.1 = .epsilon ∨ w.1 = .symbol := by
  cases s <;> simp [Side.words]

/-- A semicolon ends a production set and is nowhere else in it. -/
theorem Block.kind_ne_semicolon (b : Block) : ∀ w ∈ b.opening, w.1 ≠ .semicolon := by
  have hside : ∀ s : Side, ∀ w ∈ s.words, w.1 ≠ .semicolon := by
    intro s w hw
    rcases s.kind_of_mem w hw with hkind | hkind <;> simp [hkind]
  intro w hw
  simp only [Block.opening, List.mem_append, List.mem_cons, List.mem_flatMap] at hw
  rcases hw with (rfl | rfl | hfirst) | ⟨other, _, rfl | hother⟩
  · simp
  · simp
  · exact hside b.first w hfirst
  · simp
  · exact hside other.2 w hother

/-! ## Leaves -/

theorem leaves_nest {α : Type} (rule : Rule) (children : α → List Node) (items : List α) :
    (Node.nest rule (items.map children)).leaves =
      items.flatMap fun item => (children item).flatMap Node.leaves := by
  induction items with
  | nil => simp [Node.nest]
  | cons item items ih => simp [Node.nest_cons, ih]

theorem Side.leaves_tree (s : Side) : s.tree.leaves = s.words.map Word.leaf := by
  cases s with
  | empty text => simp [Side.tree, Side.content, Side.words, Word.leaf]
  | names first others =>
      have hothers : (others.flatMap fun name => [Node.word .symbol name]) =
          others.map (Node.word .symbol) :=
        List.map_eq_flatMap.symm
      simp [Side.tree, Side.content, Side.words, Word.leaf, leaves_nest, Function.comp_def, hothers]

theorem Block.leaves_tree (b : Block) :
    b.tree.leaves ++ [Node.word .semicolon b.stop] = b.words.map Word.leaf := by
  simp [Block.tree, Block.words, Block.opening, Word.leaf, leaves_nest, Side.leaves_tree,
    List.map_flatMap]

theorem leaves_list (o : Outline) : o.list.leaves = o.words.map Word.leaf := by
  have hothers : (o.others.flatMap fun b => b.tree.leaves ++ [Node.word .semicolon b.stop]) =
      o.others.flatMap fun b => b.words.map Word.leaf := by
    simp only [Block.leaves_tree]
  have hfirst := o.first.leaves_tree
  simp only [list, words, blocks, Node.leaves_expansion, List.flatMap_cons, List.flatMap_nil,
    Node.leaves_word, leaves_nest, List.append_nil, List.map_append, List.map_flatMap, ← hfirst,
    ← hothers]
  simp

theorem leaves_tree (o : Outline) (stop : String) :
    (o.tree stop).leaves = o.words.map Word.leaf ++ [Node.word .endOfInput stop] := by
  simp [tree, leaves_list]

/-! ## Derivation trees -/

theorem Side.derivation (s : Side) : s.tree.Derivation := by
  cases s with
  | empty text =>
      apply Node.Derivation.expansion
      · simp [Rule.rightHandSides, content]
      · simpa [content] using Node.Derivation.word .epsilon text
  | names first others =>
      have hothers : (Node.nest .symbolListTail
          (others.map fun name => [Node.word .symbol name])).Derivation := by
        refine Node.Derivation.nest [.token .symbol] rfl others fun name => ⟨rfl, ?_⟩
        simpa using Node.Derivation.word .symbol name
      apply Node.Derivation.expansion
      · simp [Rule.rightHandSides, content]
      · intro c hc
        rcases List.mem_singleton.1 hc with rfl
        apply Node.Derivation.expansion
        · simp [Rule.rightHandSides]
        · simpa using ⟨Node.Derivation.word .symbol first, hothers⟩

theorem Block.derivation (b : Block) : b.tree.Derivation := by
  have hothers : (Node.nest .productionSetTail
      (b.others.map fun other => [Node.word .alsoDerives other.1, other.2.tree])).Derivation := by
    refine Node.Derivation.nest [.token .alsoDerives, .rule .rightHandSide] rfl b.others
      fun other => ⟨rfl, ?_⟩
    simpa using ⟨Node.Derivation.word .alsoDerives other.1, other.2.derivation⟩
  apply Node.Derivation.expansion
  · simp [Rule.rightHandSides, Side.tree]
  · simpa using ⟨Node.Derivation.word .symbol b.head, Node.Derivation.word .derives b.colon,
      b.first.derivation, hothers⟩

theorem derivation_list (o : Outline) : o.list.Derivation := by
  have hothers : (Node.nest .productionListTail
      (o.others.map fun b => [b.tree, Node.word .semicolon b.stop])).Derivation := by
    refine Node.Derivation.nest [.rule .productionSet, .token .semicolon] rfl o.others
      fun b => ⟨rfl, ?_⟩
    simpa using ⟨b.derivation, Node.Derivation.word .semicolon b.stop⟩
  apply Node.Derivation.expansion
  · simp [Rule.rightHandSides, Block.tree]
  · simpa using ⟨o.first.derivation, Node.Derivation.word .semicolon o.first.stop, hothers⟩

theorem derivation_tree (o : Outline) (stop : String) : (o.tree stop).Derivation := by
  apply Node.Derivation.expansion
  · simp [Rule.rightHandSides, list]
  · simpa using ⟨o.derivation_list, Node.Derivation.word .endOfInput stop⟩

/-! ## Outlines of derivation trees -/

variable {n : Node}

theorem exists_side (h : n.Derivation) (htag : n.tag = .rule .rightHandSide) :
    ∃ s : Side, n = s.tree := by
  rcases h.exists_children htag with ⟨children, rfl, hsides, hchildren⟩
  -- A list of names or the word for the empty alternative.
  rcases List.mem_cons.1 hsides with hnames | hempty
  · rcases List.map_eq_singleton_iff.1 hnames with ⟨list, rfl, hlist⟩
    rcases (hchildren list (by simp)).exists_children hlist with ⟨parts, rfl, hparts, hderived⟩
    rw [Rule.rightHandSides, List.mem_singleton] at hparts
    rcases List.map_eq_cons_iff.1 hparts with ⟨head, rest, rfl, hhead, hrest⟩
    rcases List.map_eq_singleton_iff.1 hrest with ⟨tail, rfl, htail⟩
    rcases (hderived head (by simp)).exists_text hhead with ⟨first, rfl⟩
    have hround : ∀ round : List Node, round.map Node.tag = [.token .symbol] →
        (∀ c ∈ round, c.Derivation) → ∃ name : String, round = [Node.word .symbol name] := by
      intro round hbody hwords
      rcases List.map_eq_singleton_iff.1 hbody with ⟨word, rfl, hword⟩
      rcases (hwords word (by simp)).exists_text hword with ⟨name, rfl⟩
      exact ⟨name, rfl⟩
    rcases (hderived tail (by simp)).exists_items [.token .symbol] rfl htail hround with
      ⟨others, rfl⟩
    exact ⟨.names first others, rfl⟩
  · rw [List.mem_singleton] at hempty
    rcases List.map_eq_singleton_iff.1 hempty with ⟨word, rfl, hword⟩
    rcases (hchildren word (by simp)).exists_text hword with ⟨text, rfl⟩
    exact ⟨.empty text, rfl⟩

theorem exists_other {round : List Node}
    (hbody : round.map Node.tag = [.token .alsoDerives, .rule .rightHandSide])
    (hparts : ∀ c ∈ round, c.Derivation) :
    ∃ other : String × Side, round = [Node.word .alsoDerives other.1, other.2.tree] := by
  rcases List.map_eq_cons_iff.1 hbody with ⟨bar, rest, rfl, hbar, hrest⟩
  rcases List.map_eq_singleton_iff.1 hrest with ⟨side, rfl, hside⟩
  rcases (hparts bar (by simp)).exists_text hbar with ⟨text, rfl⟩
  rcases exists_side (hparts side (by simp)) hside with ⟨other, rfl⟩
  exact ⟨(text, other), rfl⟩

/-- The tree of a production set does not have its semicolon, so any text will do for it. -/
theorem exists_block (h : n.Derivation) (htag : n.tag = .rule .productionSet) (stop : String) :
    ∃ b : Block, n = b.tree ∧ b.stop = stop := by
  rcases h.exists_children htag with ⟨children, rfl, hsides, hchildren⟩
  rw [Rule.rightHandSides, List.mem_singleton] at hsides
  rcases List.map_eq_cons_iff.1 hsides with ⟨head, rest, rfl, hhead, hrest⟩
  rcases List.map_eq_cons_iff.1 hrest with ⟨colon, rest, rfl, hcolon, hrest⟩
  rcases List.map_eq_cons_iff.1 hrest with ⟨side, rest, rfl, hside, hrest⟩
  rcases List.map_eq_singleton_iff.1 hrest with ⟨tail, rfl, htail⟩
  rcases (hchildren head (by simp)).exists_text hhead with ⟨headText, rfl⟩
  rcases (hchildren colon (by simp)).exists_text hcolon with ⟨colonText, rfl⟩
  rcases exists_side (hchildren side (by simp)) hside with ⟨first, rfl⟩
  have hderived : tail.Derivation := hchildren tail (by simp)
  rcases hderived.exists_items [.token .alsoDerives, .rule .rightHandSide] rfl htail
    (fun _ => exists_other) with ⟨others, rfl⟩
  exact ⟨⟨headText, colonText, first, others, stop⟩, rfl, rfl⟩

theorem exists_stopped {round : List Node}
    (hbody : round.map Node.tag = [.rule .productionSet, .token .semicolon])
    (hparts : ∀ c ∈ round, c.Derivation) :
    ∃ b : Block, round = [b.tree, Node.word .semicolon b.stop] := by
  rcases List.map_eq_cons_iff.1 hbody with ⟨set, rest, rfl, hset, hrest⟩
  rcases List.map_eq_singleton_iff.1 hrest with ⟨semicolon, rfl, hsemicolon⟩
  rcases (hparts semicolon (by simp)).exists_text hsemicolon with ⟨text, rfl⟩
  rcases exists_block (hparts set (by simp)) hset text with ⟨b, rfl, rfl⟩
  exact ⟨b, rfl⟩

theorem exists_list (h : n.Derivation) (htag : n.tag = .rule .productionList) :
    ∃ o : Outline, n = o.list := by
  rcases h.exists_children htag with ⟨children, rfl, hsides, hchildren⟩
  -- The first production set and its semicolon look like a round of the tail behind them.
  have hparts : children.map Node.tag =
      [.rule .productionSet, .token .semicolon] ++ [.rule .productionListTail] :=
    List.mem_singleton.1 hsides
  rcases List.map_eq_append_iff.1 hparts with ⟨round, rest, rfl, hbody, hrest⟩
  rcases List.map_eq_singleton_iff.1 hrest with ⟨tail, rfl, htail⟩
  rcases exists_stopped hbody fun c hc => hchildren c (List.mem_append_left _ hc) with ⟨first, rfl⟩
  have hderived : tail.Derivation := hchildren tail (by simp)
  rcases hderived.exists_items [.rule .productionSet, .token .semicolon] rfl htail
    (fun _ => exists_stopped) with ⟨others, rfl⟩
  exact ⟨⟨first, others⟩, rfl⟩

/-- The derivation trees of whole grammars are the trees of outlines. -/
theorem exists_outline (h : n.Derivation) (htag : n.tag = .rule .grammar) :
    ∃ (o : Outline) (stop : String), n = o.tree stop := by
  rcases h.exists_children htag with ⟨children, rfl, hsides, hchildren⟩
  rw [Rule.rightHandSides, List.mem_singleton] at hsides
  rcases List.map_eq_cons_iff.1 hsides with ⟨list, rest, rfl, hlist, hrest⟩
  rcases List.map_eq_singleton_iff.1 hrest with ⟨finish, rfl, hfinish⟩
  rcases (hchildren finish (by simp)).exists_text hfinish with ⟨stop, rfl⟩
  rcases exists_list (hchildren list (by simp)) hlist with ⟨o, rfl⟩
  exact ⟨o, stop, rfl⟩

end Outline
end BnfGrammar
