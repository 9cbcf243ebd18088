import BnfGrammar.Proofs.Grammar.Productions

/-!
# Production sets by the kinds of words

The production sets of a text can be told from the kinds of its words, without a parser: a semicolon
ends a set, the first word of a set is its left-hand side, the second one leads to its right-hand
sides, and bars stand between these. For the words of an outline this gives what the outline says,
so the grammar of a parsed text is that of the production sets into which the kinds split it.
-/

namespace BnfGrammar
namespace Outline

/-! ## Splitting a text -/

/-- The words of each production set without its semicolon. There are none behind the last
semicolon. -/
def pieces (words : List Word) : List (List Word) :=
  (words.splitOnP fun w => w.1 = .semicolon).dropLast

/-- The names in a right-hand side. The word for the empty alternative is no name. -/
def namesIn (side : List Word) : Alternative :=
  (side.filter fun w => w.1 = .symbol).map Prod.snd

/-- What the words of a production set say. -/
def setIn (piece : List Word) : ProductionSet :=
  ((piece.map Prod.snd).headD "",
    ((piece.drop 2).splitOnP fun w => w.1 = .alsoDerives).map namesIn)

/-- What the production sets of a text say. -/
def setsIn (words : List Word) : List ProductionSet :=
  (pieces words).map setIn

/-! ## Splitting the words of an outline -/

theorem Side.namesIn_words (s : Side) : namesIn s.words = s.alternative := by
  cases s with
  | empty text => rfl
  | names first others =>
      have hkept : (Side.names first others).words.filter (fun w => w.1 = .symbol) =
          (Side.names first others).words := by
        refine List.filter_eq_self.2 ?_
        simp [Side.words]
      rw [namesIn, hkept]
      simp [Side.words, Side.alternative, Function.comp_def]

/-- There are bars between right-hand sides and none in them. -/
theorem splitOnP_sides (others : List (String × Side)) : ∀ first : Side,
    ((first.words ++ others.flatMap fun other => (.alsoDerives, other.1) :: other.2.words).splitOnP
        fun w => w.1 = .alsoDerives) =
      first.words :: others.map fun other => other.2.words := by
  have hinside : ∀ s : Side, ∀ w ∈ s.words, decide (w.1 = .alsoDerives) = false := by
    intro s w hw
    rcases s.kind_of_mem w hw with hkind | hkind <;> simp [hkind]
  -- Behind the first bar the next side takes the place of the first one.
  induction others with
  | nil =>
      intro first
      simpa using List.splitOnP_eq_singleton (hinside first)
  | cons other others ih =>
      intro first
      rw [List.flatMap_cons, List.cons_append,
        List.splitOnP_append_cons_of_forall_mem (hinside first) _ (by simp), ih other.2,
        List.map_cons]

theorem Block.setIn_opening (b : Block) : setIn b.opening = b.set := by
  have hsides : (b.opening.drop 2).splitOnP (fun w => w.1 = .alsoDerives) =
      b.sides.map Side.words := by
    simpa [Block.opening, Block.sides, Function.comp_def] using splitOnP_sides b.others b.first
  rw [setIn, hsides, List.map_map]
  exact congrArg (b.head, ·) (List.map_congr_left fun s _ => s.namesIn_words)

/-- Semicolons are found at the ends of production sets and nowhere else. -/
theorem splitOnP_blocks (blocks : List Block) :
    (blocks.flatMap Block.words).splitOnP (fun w => w.1 = .semicolon) =
      blocks.map Block.opening ++ [[]] := by
  induction blocks with
  | nil => simp
  | cons b blocks ih =>
      have hinside : ∀ w ∈ b.opening, decide (w.1 = .semicolon) = false :=
        fun w hw => decide_eq_false (b.kind_ne_semicolon w hw)
      rw [List.flatMap_cons, Block.words, List.append_assoc, List.singleton_append,
        List.splitOnP_append_cons_of_forall_mem hinside _ (by simp), ih, List.map_cons,
        List.cons_append]

theorem pieces_words (o : Outline) : pieces o.words = o.blocks.map Block.opening := by
  rw [pieces, words, splitOnP_blocks, List.dropLast_concat]

theorem setsIn_words (o : Outline) : setsIn o.words = o.sets := by
  rw [setsIn, pieces_words, List.map_map]
  exact List.map_congr_left fun b _ => b.setIn_opening

end Outline

namespace Grammar

variable {tokens : List Token} {tree : Node}

/-- The words of a parsed text before its end are those of production sets. The grammar of the text
gathers the sets into which the kinds of the words split it. -/
theorem gathers_setsIn (hparse : Node.parse tokens = .ok tree) :
    (∃ o : Outline, (Token.beforeEnd tokens).map Token.word = o.words ∧
      Outline.setsIn ((Token.beforeEnd tokens).map Token.word) = o.sets) ∧
    (ofTree tree).Gathers (Outline.setsIn ((Token.beforeEnd tokens).map Token.word)) := by
  rcases Node.parse_eq_ok_iff_outline.1 hparse with ⟨o, hwords, rfl⟩
  rw [hwords, o.setsIn_words]
  exact ⟨⟨o, rfl, rfl⟩, gathers_ofTree o _⟩

/-- `E : E + T | T; T : x; E : EPSILON | - T; T : E E;`, with two sets for either left-hand side. -/
def scattered : Outline where
  first := ⟨"E", ":", .names "E" ["+", "T"], [("|", .names "T" [])], ";"⟩
  others :=
    [⟨"T", ":", .names "x" [], [], ";"⟩,
      ⟨"E", ":", .empty "EPSILON", [("|", .names "-" ["T"])], ";"⟩,
      ⟨"T", ":", .names "E" ["E"], [], ";"⟩]

theorem gathers_setsIn_scattered :
    Node.parse scattered.tokens = .ok (scattered.tree "") ∧
      (ofTree (scattered.tree "")).productions.toList =
        [("E", [["E", "+", "T"], ["T"], [], ["-", "T"]]), ("T", [["x"], ["E", "E"]])] ∧
      (ofTree (scattered.tree "")).terminals.toList = ["+", "x", "-"] := by
  have hparse := Node.parse_tokens scattered
  rcases gathers_setsIn hparse with ⟨_, hgathers⟩
  refine ⟨hparse, ?_, ?_⟩
  · rw [hgathers.productions_eq]
    decide +kernel
  · rw [hgathers.terminals_eq]
    decide +kernel

end Grammar
end BnfGrammar
