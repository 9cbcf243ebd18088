import BnfGrammar.Proofs.Grammar.Consistent
import BnfGrammar.Proofs.SyntaxTree.Parse

/-!
# Grammars of parsed texts

The tree of an outline contributes, for every production set, its left-hand side and then the names
of its alternatives, each with an end behind it. Every name that is read comes after a first
left-hand side, so the grammar of a parsed text is consistent, and its goal is the first name of the
text.
-/

namespace BnfGrammar

/-! ## Contributions of outlines -/

namespace Outline

theorem marksBelow_word (parent : Tag) (kind : TokenKind) (text : String) :
    (Node.word kind text).marksBelow parent =
      (Mark.ofNode? parent (Node.word kind text)).toList := by
  simp [Node.word, Node.marksBelow_mk]

theorem marksBelow_expansion (parent : Tag) (rule : Rule) (children : List Node) :
    (Node.expansion rule children).marksBelow parent =
      (Mark.ofNode? parent (Node.expansion rule children)).toList ++
        children.flatMap (Node.marksBelow (.rule rule)) :=
  Node.marksBelow_mk parent (.rule rule) "" children

/-- A tail contributes the rounds' contributions, each behind one of its own. -/
theorem marksBelow_nest {α : Type} {rule : Rule} {own : List Mark}
    (hown : ∀ parent children,
      (Mark.ofNode? parent (Node.expansion rule children)).toList = own)
    (children : α → List Node) (items : List α) (parent : Tag) :
    (Node.nest rule (items.map children)).marksBelow parent =
      own ++ items.flatMap fun item =>
        (children item).flatMap (Node.marksBelow (.rule rule)) ++ own := by
  -- An expansion without a round contributes for itself alone and ends every tail.
  induction items generalizing parent with
  | nil => simp [Node.nest, marksBelow_expansion, hown]
  | cons item items ih => simp [Node.nest_cons, marksBelow_expansion, hown, ih]

/-- The contributions of a production set. -/
def Block.marks (b : Block) : List Mark :=
  .head b.head :: b.sides.flatMap fun side => side.alternative.map Mark.item ++ [.close]

theorem Side.marksBelow_tree (parent : Tag) (s : Side) :
    s.tree.marksBelow parent = s.alternative.map Mark.item := by
  cases s with
  | empty text => rfl
  | names first others =>
      have htail : (Node.nest .symbolListTail
          (others.map fun name => [Node.word .symbol name])).marksBelow (.rule .symbolList) =
            others.map Mark.item := by
        rw [marksBelow_nest (fun _ _ => rfl : ∀ parent children,
          (Mark.ofNode? parent (Node.expansion .symbolListTail children)).toList = [])]
        simp [marksBelow_word, Mark.ofNode?, List.map_eq_flatMap]
      simp [Side.tree, Side.content, Side.alternative, marksBelow_expansion, marksBelow_word, htail,
        Mark.ofNode?]

theorem Block.marksBelow_tree (parent : Tag) (b : Block) :
    b.tree.marksBelow parent = b.marks := by
  have htail : (Node.nest .productionSetTail
      (b.others.map fun other => [Node.word .alsoDerives other.1, other.2.tree])).marksBelow
        (.rule .productionSet) =
      .close :: b.others.flatMap fun other => other.2.alternative.map Mark.item ++ [.close] := by
    rw [marksBelow_nest (fun _ _ => rfl : ∀ parent children,
      (Mark.ofNode? parent (Node.expansion .productionSetTail children)).toList = [.close])]
    simp [marksBelow_word, Side.marksBelow_tree, Mark.ofNode?]
  simp [Block.tree, Block.marks, Block.sides, marksBelow_expansion, marksBelow_word, htail,
    Side.marksBelow_tree, Mark.ofNode?, List.flatMap_map]

theorem marks_tree (o : Outline) (stop : String) :
    (o.tree stop).marks = o.blocks.flatMap Block.marks := by
  have htail : (Node.nest .productionListTail
      (o.others.map fun b => [b.tree, Node.word .semicolon b.stop])).marksBelow
        (.rule .productionList) = o.others.flatMap Block.marks := by
    rw [marksBelow_nest (fun _ _ => rfl : ∀ parent children,
      (Mark.ofNode? parent (Node.expansion .productionListTail children)).toList = [])]
    simp [marksBelow_word, Block.marksBelow_tree, Mark.ofNode?]
  rw [Node.marks_eq_marksBelow]
  simp [tree, list, blocks, marksBelow_expansion, marksBelow_word, htail, Block.marksBelow_tree,
    Mark.ofNode?]

/-- The names that an outline contributes stand in its words. -/
theorem symbol_mem_words {o : Outline} {name : String}
    (h : .head name ∈ o.blocks.flatMap Block.marks ∨ .item name ∈ o.blocks.flatMap Block.marks) :
    (TokenKind.symbol, name) ∈ o.words := by
  have hblock : ∃ b ∈ o.blocks, .head name ∈ b.marks ∨ .item name ∈ b.marks := by
    rcases h with h | h
    · rcases List.mem_flatMap.1 h with ⟨b, hb, hmark⟩
      exact ⟨b, hb, Or.inl hmark⟩
    · rcases List.mem_flatMap.1 h with ⟨b, hb, hmark⟩
      exact ⟨b, hb, Or.inr hmark⟩
  rcases hblock with ⟨b, hb, hmark⟩
  refine List.mem_flatMap.2 ⟨b, hb, List.mem_append_left _ ?_⟩
  rcases hmark with hhead | hitem
  · have hname : name = b.head := by simpa [Block.marks] using hhead
    rw [hname]
    exact List.mem_cons_self
  · have hside : ∃ side ∈ b.sides, name ∈ side.alternative := by
      simpa [Block.marks] using hitem
    rcases hside with ⟨side, hside, hname⟩
    have hword : (TokenKind.symbol, name) ∈ side.words := by
      cases side with
      | empty text => cases hname
      | names first others => exact List.mem_map.2 ⟨name, hname, rfl⟩
    rcases List.mem_cons.1 hside with rfl | hother
    · simp [Block.opening, hword]
    · rcases List.mem_map.1 hother with ⟨other, hmem, rfl⟩
      have hbar : (TokenKind.symbol, name) ∈ b.others.flatMap fun other =>
          (.alsoDerives, other.1) :: other.2.words :=
        List.mem_flatMap.2 ⟨other, hmem, List.mem_cons_of_mem _ hword⟩
      exact List.mem_append_right _ hbar

end Outline

/-! ## Drafts -/

namespace Grammar
namespace Draft

open Productions

variable {d : Draft} {name : String} {marks : List Mark}

/-- Alternatives that are added to a left-hand side are offered beside the old ones. -/
theorem offers_alter {p : Productions} {lhs lhs' : String} {more : List Alternative}
    {alternative : Alternative} :
    Offers (p.alter lhs fun found => found.getD [] ++ more) lhs' alternative ↔
      Offers p lhs' alternative ∨ lhs = lhs' ∧ alternative ∈ more := by
  unfold Offers
  rw [ArrivalMap.find?_alter]
  by_cases h : lhs = lhs'
  · subst h
    cases p.find? lhs with
    | none => simp
    | some alternatives => simp
  · simp [h]

/-- Every name that is in an alternative, finished or at hand, has been listed. -/
structure Covered (d : Draft) : Prop where
  rhs_mem : ∀ name ∈ d.rhs, name ∈ d.names
  closed : ∀ {lhs alternative}, Offers d.productions lhs alternative →
    ∀ name ∈ alternative, name ∈ d.names

/-- Taking in a contribution keeps the names listed, wherever it comes from. -/
theorem Covered.step (h : d.Covered) (mark : Mark) : (d.read mark).Covered := by
  cases mark with
  | head name =>
      refine ⟨h.rhs_mem, ?_⟩
      intro lhs alternative hoffers
      have hadded : Offers (d.productions.alter name fun found => found.getD [] ++ []) lhs
          alternative := by
        simpa [read] using hoffers
      rcases offers_alter.1 hadded with hold | ⟨_, hnone⟩
      · exact h.closed hold
      · cases hnone
  | item name =>
      refine ⟨?_, ?_⟩
      · intro other hother
        rcases List.mem_append.1 hother with hold | hnew
        · exact ArrivalSet.mem_insert.2 (Or.inl (h.rhs_mem other hold))
        · exact ArrivalSet.mem_insert.2 (Or.inr (List.mem_singleton.1 hnew))
      · intro lhs alternative hoffers other hother
        exact ArrivalSet.mem_insert.2 (Or.inl (h.closed hoffers other hother))
  | close =>
      refine ⟨?_, ?_⟩
      · intro other hother
        cases hother
      · intro lhs alternative hoffers
        rcases offers_alter.1 hoffers with hold | ⟨_, hnew⟩
        · exact h.closed hold
        · exact List.mem_singleton.1 hnew ▸ h.rhs_mem

theorem covered_empty : ({} : Draft).Covered := by
  refine ⟨?_, ?_⟩
  · intro name hname
    cases hname
  · rintro lhs alternative ⟨alternatives, hfind, _⟩
    cases hfind

/-- A draft that has met a left-hand side. -/
structure Begun (d : Draft) : Prop extends Covered d where
  keys_eq : d.productions.keys = d.nonterminals.toList
  lhs_mem : d.lhs ∈ d.nonterminals

/-- The left-hand side that a draft meets is a nonterminal with its alternatives so far. -/
theorem Begun.of_head (hkeys : d.productions.keys = d.nonterminals.toList) (hcovered : d.Covered)
    (name : String) : (d.read (.head name)).Begun where
  toCovered := hcovered.step (.head name)
  keys_eq := by
    simp only [read, ArrivalMap.keys_alter, ArrivalSet.toList_insert, hkeys, ArrivalSet.mem_def]
  lhs_mem := by simp [read]

/-- Taking in a contribution keeps a draft in order. -/
theorem Begun.step (h : d.Begun) (mark : Mark) : (d.read mark).Begun := by
  cases mark with
  | head name => exact .of_head h.keys_eq h.toCovered name
  | item name => exact ⟨h.toCovered.step (.item name), h.keys_eq, h.lhs_mem⟩
  | close =>
      have hlhs : d.lhs ∈ d.productions.keys := h.keys_eq ▸ h.lhs_mem
      refine ⟨h.toCovered.step .close, ?_, h.lhs_mem⟩
      -- The left-hand side at hand is a key, so no key is added.
      simpa [read, ArrivalMap.keys_alter, hlhs] using h.keys_eq

theorem Begun.run (marks : List Mark) : ∀ {d : Draft}, d.Begun → (marks.foldl read d).Begun := by
  induction marks with
  | nil => exact id
  | cons mark marks ih => exact fun h => ih (h.step mark)

/-- Every name that is met becomes a symbol of the grammar. -/
theorem mem_foldl_read (name : String) (marks : List Mark) : ∀ {d : Draft},
    (name ∈ (marks.foldl read d).nonterminals ↔ name ∈ d.nonterminals ∨ .head name ∈ marks) ∧
      (name ∈ (marks.foldl read d).names ↔ name ∈ d.names ∨ .item name ∈ marks) := by
  induction marks with
  | nil => simp
  | cons mark marks ih =>
      intro d
      cases mark with
      | head other => simp [ih, read, or_assoc]
      | item other => simp [ih, read, or_assoc]
      | close => simp [ih, read]

/-- The goal stays the first left-hand side. -/
theorem head?_keys_foldl_read (marks : List Mark) : ∀ {d : Draft},
    d.productions.keys.head? = some name →
      (marks.foldl read d).productions.keys.head? = some name := by
  induction marks with
  | nil => exact id
  | cons mark marks ih =>
      intro d h
      have halter : ∀ lhs f, (d.productions.alter lhs f).keys.head? = some name := by
        intro lhs f
        rw [ArrivalMap.keys_alter]
        split
        · exact h
        · rw [List.head?_append, h]
          rfl
      cases mark with
      | head other => exact ih (halter other _)
      | item other => exact ih h
      | close => exact ih (halter d.lhs _)

theorem not_mem_nonterminals_of_terminal (h : name ∈ d.finish.terminals) :
    name ∉ d.finish.nonterminals := by
  have hkept : name ∉ d.nonterminals := by simpa using (ArrivalSet.mem_filter.1 h).2
  exact hkept

theorem Covered.isSymbol (h : d.Covered) {lhs : String} {alternative : Alternative}
    (hoffers : Offers d.finish.productions lhs alternative) (hname : name ∈ alternative) :
    d.finish.IsSymbol name := by
  -- A name that was met is a terminal unless it is a left-hand side.
  by_cases hmem : name ∈ d.nonterminals
  · exact Or.inl hmem
  · exact Or.inr (ArrivalSet.mem_filter.2 ⟨h.closed hoffers name hname, by simpa using hmem⟩)

theorem Begun.consistent (h : d.Begun) : d.finish.Consistent where
  keys_eq := h.keys_eq
  disjoint := not_mem_nonterminals_of_terminal
  closed := fun hoffers _ hname => h.toCovered.isSymbol hoffers hname

end Draft

/-! ## Parsed texts -/

variable {tokens : List Token} {tree : Node} {name : String}

/-- The symbols of the grammar of a tree are the names that the tree contributes. -/
theorem isSymbol_ofTree_iff :
    (ofTree tree).IsSymbol name ↔ .head name ∈ tree.marks ∨ .item name ∈ tree.marks := by
  rcases Draft.mem_foldl_read name tree.marks (d := {}) with ⟨hheads, hitems⟩
  have hnone : name ∉ ({} : Draft).nonterminals ∧ name ∉ ({} : Draft).names :=
    ⟨List.not_mem_nil, List.not_mem_nil⟩
  simp only [hnone, false_or] at hheads hitems
  rw [← hheads, ← hitems]
  constructor
  · rintro (hname | hname)
    · exact Or.inl hname
    · exact Or.inr (ArrivalSet.mem_filter.1 hname).1
  · intro hname
    by_cases hmem : name ∈ (tree.marks.foldl Draft.read {}).nonterminals
    · exact Or.inl hmem
    · exact Or.inr (ArrivalSet.mem_filter.2 ⟨hname.resolve_left hmem, by simpa using hmem⟩)

theorem consistent_ofTree (h : Node.parse tokens = .ok tree) : (ofTree tree).Consistent := by
  rcases Node.parse_eq_ok_iff_outline.1 h with ⟨o, _, rfl⟩
  -- The first contribution of an outline is a left-hand side.
  have hempty : (({} : Draft).read (.head o.first.head)).Begun :=
    .of_head rfl Draft.covered_empty o.first.head
  rw [ofTree, Outline.marks_tree]
  exact (hempty.run _).consistent

/-- The symbols of the grammar of a parsed text are names that stand in the text. -/
theorem exists_token_of_isSymbol (h : Node.parse tokens = .ok tree)
    (hname : (ofTree tree).IsSymbol name) : ∃ t ∈ tokens, t.kind = .symbol ∧ t.value = name := by
  rcases Node.parse_eq_ok_iff_outline.1 h with ⟨o, hwords, rfl⟩
  rw [isSymbol_ofTree_iff, Outline.marks_tree] at hname
  have hword := Outline.symbol_mem_words hname
  rw [← hwords] at hword
  rcases List.mem_map.1 hword with ⟨t, ht, heq⟩
  rcases Prod.mk.inj heq with ⟨hkind, hvalue⟩
  exact ⟨t, List.takeWhile_subset _ ht, hkind, hvalue⟩

/-- The goal of a parsed text is its first word. -/
theorem exists_goal_ofTree (h : Node.parse tokens = .ok tree) :
    ∃ goal, (ofTree tree).goal? = some goal ∧ tokens.head?.map Token.value = some goal := by
  rcases Node.parse_eq_ok_iff_outline.1 h with ⟨o, hwords, rfl⟩
  refine ⟨o.first.head, ?_, ?_⟩
  · rw [ofTree, Outline.marks_tree]
    exact Draft.head?_keys_foldl_read (d := ({} : Draft).read (.head o.first.head)) _ rfl
  · have hhead : (Token.beforeEnd tokens).head?.map Token.value = some o.first.head := by
      have hfirst := congrArg (fun words => words.head?.map Prod.snd) hwords
      rw [List.head?_map, Option.map_map] at hfirst
      exact hfirst
    cases tokens with
    | nil => cases hhead
    | cons t tokens =>
        by_cases hend : t.kind = .endOfInput
        · simp [Token.beforeEnd, hend] at hhead
        · simpa [Token.beforeEnd, hend] using hhead

end Grammar
end BnfGrammar
