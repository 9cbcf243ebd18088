import BnfGrammar.SyntaxTree.Node
import Mathlib.Data.List.Basic
import Mathlib.Data.Set.List

/-!
# Derivation trees of the grammar notation

The eight rules of the notation as data, and the trees that follow them: the node of a rule has an
empty label and its children match one of the right-hand sides of the rule in order, and a word has
no children. A tail nests to the right, so its tree is a list of rounds, each of which holds the
children before the next expansion of the tail.
-/

namespace BnfGrammar

/-- The right-hand sides of a rule. -/
def Rule.rightHandSides : Rule → List (List Tag)
  | .grammar => [[.rule .productionList, .token .endOfInput]]
  | .productionList => [[.rule .productionSet, .token .semicolon, .rule .productionListTail]]
  | .productionListTail => [[.rule .productionSet, .token .semicolon, .rule .productionListTail], []]
  | .productionSet =>
      [[.token .symbol, .token .derives, .rule .rightHandSide, .rule .productionSetTail]]
  | .productionSetTail => [[.token .alsoDerives, .rule .rightHandSide, .rule .productionSetTail], []]
  | .rightHandSide => [[.rule .symbolList], [.token .epsilon]]
  | .symbolList => [[.token .symbol, .rule .symbolListTail]]
  | .symbolListTail => [[.token .symbol, .rule .symbolListTail], []]

namespace Node

/-- The trees that follow the rules at every node. -/
inductive Derivation : Node → Prop
  | word (kind : TokenKind) (text : String) : Derivation (word kind text)
  | expansion (rule : Rule) (children : List Node) :
      children.map tag ∈ rule.rightHandSides → (∀ n ∈ children, Derivation n) →
      Derivation (expansion rule children)

/-- The expansion of a tail with the children of its rounds. -/
def nest (rule : Rule) (rounds : List (List Node)) : Node :=
  rounds.foldr (fun children inner => expansion rule (children ++ [inner])) (expansion rule [])

variable {n : Node} {rule : Rule} {kind : TokenKind} {rounds : List (List Node)}

@[simp]
theorem tag_word (kind : TokenKind) (text : String) : (word kind text).tag = .token kind :=
  rfl

@[simp]
theorem label_word (kind : TokenKind) (text : String) : (word kind text).label = text :=
  rfl

@[simp]
theorem tag_expansion (rule : Rule) (children : List Node) :
    (expansion rule children).tag = .rule rule :=
  rfl

@[simp]
theorem tag_nest (rule : Rule) (rounds : List (List Node)) :
    (nest rule rounds).tag = .rule rule := by
  cases rounds with
  | nil => rfl
  | cons round rounds => rfl

theorem nest_cons (rule : Rule) (round : List Node) (rounds : List (List Node)) :
    nest rule (round :: rounds) = expansion rule (round ++ [nest rule rounds]) :=
  rfl

namespace Derivation

/-! ## Inversion -/

theorem exists_text (h : Derivation n) (htag : n.tag = .token kind) :
    ∃ text, n = Node.word kind text := by
  cases h with
  | word kind' text =>
      cases htag
      exact ⟨text, rfl⟩
  | expansion rule children _ _ => cases htag

theorem exists_children (h : Derivation n) (htag : n.tag = .rule rule) :
    ∃ children, n = Node.expansion rule children ∧ children.map tag ∈ rule.rightHandSides ∧
      ∀ c ∈ children, Derivation c := by
  cases h with
  | word kind text => cases htag
  | expansion rule' children hsides hchildren =>
      cases htag
      exact ⟨children, rfl, hsides, hchildren⟩

/-! ## Tails -/

/-- The tree of a tail is made of rounds. -/
theorem exists_rounds (body : List Tag)
    (hrule : rule.rightHandSides = [body ++ [.rule rule], []]) (h : Derivation n) :
    n.tag = .rule rule → ∃ rounds, n = nest rule rounds ∧
      ∀ round ∈ rounds, round.map tag = body ∧ ∀ c ∈ round, Derivation c := by
  induction h with
  | word kind text =>
      intro htag
      cases htag
  | expansion rule' children hsides hchildren ih =>
      intro htag
      cases htag
      rw [hrule] at hsides
      rcases List.mem_cons.1 hsides with hround | hempty
      · -- One round and a nested expansion, which is made of rounds by induction.
        rcases List.map_eq_append_iff.1 hround with ⟨round, rest, rfl, hbody, hrest⟩
        rcases List.map_eq_singleton_iff.1 hrest with ⟨inner, rfl, hinner⟩
        rcases ih inner (by simp) hinner with ⟨rounds, rfl, hrounds⟩
        refine ⟨round :: rounds, rfl, ?_⟩
        intro r hr
        rcases List.mem_cons.1 hr with rfl | hr
        · exact ⟨hbody, fun c hc => hchildren c (List.mem_append_left _ hc)⟩
        · exact hrounds r hr
      · have hnil : children = [] := by
          simpa using hempty
        subst hnil
        exact ⟨[], rfl, by simp⟩

variable {α : Type} {body : α → List Node}

/-- If every round holds the children of some item, the tree of a tail is that of some items. -/
theorem exists_items (tags : List Tag)
    (hrule : rule.rightHandSides = [tags ++ [.rule rule], []]) (h : Derivation n)
    (htag : n.tag = .rule rule)
    (hround : ∀ round, round.map tag = tags → (∀ c ∈ round, Derivation c) →
      ∃ item, round = body item) :
    ∃ items : List α, n = Node.nest rule (items.map body) := by
  rcases h.exists_rounds tags hrule htag with ⟨rounds, rfl, hrounds⟩
  have hrange : rounds ∈ Set.range (List.map body) := by
    rw [Set.range_list_map]
    intro round hmem
    rcases hrounds round hmem with ⟨htags, hderived⟩
    rcases hround round htags hderived with ⟨item, rfl⟩
    exact ⟨item, rfl⟩
  rcases hrange with ⟨items, rfl⟩
  exact ⟨items, rfl⟩

theorem nest (tags : List Tag) (hrule : rule.rightHandSides = [tags ++ [.rule rule], []])
    (items : List α) (hround : ∀ item, (body item).map tag = tags ∧ ∀ c ∈ body item, Derivation c) :
    Derivation (Node.nest rule (items.map body)) := by
  induction items with
  | nil =>
      apply expansion rule []
      · simp [hrule]
      · simp
  | cons item items ih =>
      rcases hround item with ⟨htags, hderived⟩
      rw [List.map_cons, nest_cons]
      apply expansion rule (body item ++ [Node.nest rule (items.map body)])
      · simp [hrule, htags]
      · intro c hc
        rcases List.mem_append.1 hc with hc | hc
        · exact hderived c hc
        · exact List.mem_singleton.1 hc ▸ ih

end Derivation
end Node
end BnfGrammar
