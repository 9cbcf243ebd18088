import BnfGrammar.Analysis
import BnfGrammar.Proofs.Grammar.OfTree
import BnfGrammar.Proofs.Lookahead.LeftRecursion

/-!
# Analyses of parsed texts

The grammar of a parsed text is consistent, and unless some name in the text is the mark for the end
of the input, that mark is no symbol of it. These are the assumptions under which the sets and the
table of a grammar were compared with its derivations, so for the analysis of such a text:

* the FIRST sets and the list of nullable nonterminals are exactly what derivations say;
* so are the FOLLOW sets, with the first name of the text as the goal;
* a table without conflicts predicts every step of every leftmost derivation of a sentence;
* the table of a reduced grammar with a left-recursive nonterminal has conflicts.
-/

namespace BnfGrammar
namespace Analysis

open Productions SetTable

variable {tokens : List Token} {tree : Node}

/-! ## The parts of an analysis -/

theorem grammar_ofTree (tree : Node) : (ofTree tree).grammar = Grammar.ofTree tree :=
  rfl

theorem goal_ofTree (tree : Node) : (ofTree tree).goal = (Grammar.ofTree tree).goal? :=
  rfl

theorem first_ofTree (tree : Node) : (ofTree tree).first = (Grammar.ofTree tree).firstSets.1 :=
  rfl

theorem follow_ofTree (tree : Node) :
    (ofTree tree).follow =
      ((Grammar.ofTree tree).followSets (Grammar.ofTree tree).firstSets.1
        (Grammar.ofTree tree).goal?).1 :=
  rfl

theorem predictions_ofTree (tree : Node) :
    (ofTree tree).predictions = (Grammar.ofTree tree).predictions :=
  rfl

theorem unmarked_of_parse (hparse : Node.parse tokens = .ok tree)
    (hmarker : ∀ t ∈ tokens, t.kind = .symbol → t.value ≠ Lookahead.endMarker) :
    ¬ (ofTree tree).grammar.IsSymbol Lookahead.endMarker := by
  intro hsymbol
  rcases Grammar.exists_token_of_isSymbol hparse hsymbol with ⟨t, ht, hkind, hvalue⟩
  exact hmarker t ht hkind hvalue

/-! ## FIRST sets -/

theorem mem_firstOf_iff (hparse : Node.parse tokens = .ok tree)
    (hmarker : ∀ t ∈ tokens, t.kind = .symbol → t.value ≠ Lookahead.endMarker)
    {form : List String} (hform : ∀ name ∈ form, (ofTree tree).grammar.IsSymbol name)
    {la : Lookahead} : la ∈ (ofTree tree).firstOf form ↔ (ofTree tree).grammar.Begins form la := by
  have hg := Grammar.consistent_ofTree hparse
  exact Grammar.mem_firstOf_firstSets_iff hg (unmarked_of_parse hparse hmarker) hform

theorem exists_first? (hparse : Node.parse tokens = .ok tree)
    (hmarker : ∀ t ∈ tokens, t.kind = .symbol → t.value ≠ Lookahead.endMarker)
    {name : String} (hname : (ofTree tree).grammar.IsSymbol name) :
    ∃ set, (ofTree tree).first? name = some set ∧
      ∀ la, la ∈ set ↔ (ofTree tree).grammar.Begins [name] la := by
  have hg := Grammar.consistent_ofTree hparse
  have hkey : name ∈ (ofTree tree).first.keys := by
    rw [first_ofTree, Grammar.keys_firstSets, Grammar.mem_keys_firstStart]
    exact hname.imp_right Or.inr
  refine ⟨members (ofTree tree).first name, find?_of_mem_keys hkey, ?_⟩
  intro la
  rw [first_ofTree]
  exact Grammar.mem_members_firstSets_iff hg (unmarked_of_parse hparse hmarker) hname

/-- The FIRST sets of a parsed text hold exactly what derivations begin with, and the nullable
nonterminals are exactly those that derive nothing. -/
theorem first_eq_begins (hparse : Node.parse tokens = .ok tree)
    (hmarker : ∀ t ∈ tokens, t.kind = .symbol → t.value ≠ Lookahead.endMarker) :
    (∀ name, (ofTree tree).grammar.IsSymbol name →
        ∃ set, (ofTree tree).first? name = some set ∧
          ∀ la, la ∈ set ↔ (ofTree tree).grammar.Begins [name] la) ∧
      (∀ form, (∀ name ∈ form, (ofTree tree).grammar.IsSymbol name) →
        ∀ la, la ∈ (ofTree tree).firstOf form ↔ (ofTree tree).grammar.Begins form la) ∧
      (ofTree tree).nullable.Nodup ∧
      ∀ name, name ∈ (ofTree tree).nullable ↔
        name ∈ (ofTree tree).grammar.nonterminals ∧
          Derives (ofTree tree).grammar.productions [name] [] := by
  refine ⟨fun name hname => exists_first? hparse hmarker hname,
    fun form hform la => mem_firstOf_iff hparse hmarker hform,
    (ofTree tree).grammar.nonterminals.nodup.filter _, ?_⟩
  intro name
  rw [nullable, List.mem_filter]
  refine and_congr_right ?_
  intro hname
  rcases exists_first? hparse hmarker (Or.inl hname) with ⟨set, hset, hmem⟩
  have hempty : .epsilon ∈ set ↔ Derives (ofTree tree).grammar.productions [name] [] :=
    hmem .epsilon
  rw [← hempty, isNullable, hset]
  simp

/-- `S : A B S | x; A : B | EPSILON; B : A | y; U : S y;`, where two names that may vanish lead to
each other in front of a recursive one, and no other name leads to `U`. -/
def tangled : Outline where
  first := ⟨"S", ":", .names "A" ["B", "S"], [("|", .names "x" [])], ";"⟩
  others :=
    [⟨"A", ":", .names "B" [], [("|", .empty "EPSILON")], ";"⟩,
      ⟨"B", ":", .names "A" [], [("|", .names "y" [])], ";"⟩,
      ⟨"U", ":", .names "S" ["y"], [], ";"⟩]

theorem first_eq_begins_tangled :
    (∀ t ∈ tangled.tokens, t.kind = .symbol → t.value ≠ Lookahead.endMarker) ∧
      "B" ∈ (ofTree (tangled.tree "")).nullable ∧
      .terminal "x" ∈ (ofTree (tangled.tree "")).firstOf ["A", "S"] ∧
      .finish ∉ (ofTree (tangled.tree "")).firstOf ["A", "S"] := by
  have hmarker : ∀ t ∈ tangled.tokens, t.kind = .symbol → t.value ≠ Lookahead.endMarker := by
    decide
  have hvanish : Derives (Grammar.ofTree (tangled.tree "")).productions ["A"] [] :=
    Derives.of_offers ⟨[["B"], []], by decide, by decide⟩
  have hleads : Derives (Grammar.ofTree (tangled.tree "")).productions ["B"] ["A"] :=
    Derives.of_offers ⟨[["A"], ["y"]], by decide, by decide⟩
  have hends : Derives (Grammar.ofTree (tangled.tree "")).productions ["S"] ["x"] :=
    Derives.of_offers ⟨[["A", "B", "S"], ["x"]], by decide, by decide⟩
  have hsymbols : ∀ name ∈ ["A", "S"], (Grammar.ofTree (tangled.tree "")).IsSymbol name := by
    unfold Grammar.IsSymbol
    decide
  rcases first_eq_begins (Node.parse_tokens tangled) hmarker with ⟨_, hforms, _, hnullable⟩
  rw [grammar_ofTree] at hforms hnullable
  refine ⟨hmarker, ?_, ?_, ?_⟩
  · exact (hnullable "B").2 ⟨by decide, hleads.trans hvanish⟩
  · exact (hforms ["A", "S"] hsymbols _).2 ⟨by decide, [], hvanish.append hends⟩
  · exact fun hfinish => (hforms ["A", "S"] hsymbols _).1 hfinish

/-! ## FOLLOW sets -/

theorem exists_follow? (hparse : Node.parse tokens = .ok tree)
    (hmarker : ∀ t ∈ tokens, t.kind = .symbol → t.value ≠ Lookahead.endMarker)
    {name : String} (hname : name ∈ (ofTree tree).grammar.nonterminals) :
    ∃ set, (ofTree tree).follow? name = some set ∧
      ∀ la, la ∈ set ↔ (ofTree tree).grammar.Follows name la := by
  have hg := Grammar.consistent_ofTree hparse
  have hkey : name ∈ (ofTree tree).follow.keys := by
    rw [follow_ofTree]
    exact Grammar.mem_keys_followSets.2 hname
  refine ⟨members (ofTree tree).follow name, find?_of_mem_keys hkey, ?_⟩
  intro la
  rw [follow_ofTree]
  exact Grammar.mem_followSets_iff hg (unmarked_of_parse hparse hmarker) hname

/-- The FOLLOW sets of a parsed text hold exactly what derivations put behind a nonterminal, and the
end of the input behind what ends a form of the goal, which is the first name of the text. -/
theorem follow_eq_follows (hparse : Node.parse tokens = .ok tree)
    (hmarker : ∀ t ∈ tokens, t.kind = .symbol → t.value ≠ Lookahead.endMarker) :
    (∃ goal, (ofTree tree).goal = some goal ∧ tokens.head?.map Token.value = some goal) ∧
      ∀ name ∈ (ofTree tree).grammar.nonterminals,
        ∃ set, (ofTree tree).follow? name = some set ∧
          (∀ la, la ∈ set ↔ (ofTree tree).grammar.Follows name la) ∧
          ((∀ lhs alternative, Offers (ofTree tree).grammar.productions lhs alternative →
              name ∉ alternative) →
            ∀ la, la ∈ set ↔ la = .finish ∧ (ofTree tree).goal = some name) := by
  refine ⟨Grammar.exists_goal_ofTree hparse, ?_⟩
  intro name hname
  rcases exists_follow? hparse hmarker hname with ⟨set, hset, hmem⟩
  refine ⟨set, hset, hmem, ?_⟩
  intro hunreferenced la
  exact (hmem la).trans (Grammar.follows_iff_of_unreferenced hunreferenced)

theorem follow_eq_follows_tangled :
    (∀ t ∈ tangled.tokens, t.kind = .symbol → t.value ≠ Lookahead.endMarker) ∧
      (∃ set, (ofTree (tangled.tree "")).follow? "S" = some set ∧ .terminal "y" ∈ set ∧
        .finish ∈ set) ∧
      ∃ set, (ofTree (tangled.tree "")).follow? "U" = some set ∧ ∀ la, la ∉ set := by
  have hmarker : ∀ t ∈ tangled.tokens, t.kind = .symbol → t.value ≠ Lookahead.endMarker := by
    decide
  have hgoal : (Grammar.ofTree (tangled.tree "")).goal? = some "S" := by decide
  have hunreached : Derives (Grammar.ofTree (tangled.tree "")).productions ["U"] ["S", "y"] :=
    Derives.of_offers ⟨[["S", "y"]], by decide, by decide⟩
  have hunreferenced : ∀ lhs alternative,
      Offers (Grammar.ofTree (tangled.tree "")).productions lhs alternative →
        "U" ∉ alternative := by
    have hnone : ∀ entry ∈ (Grammar.ofTree (tangled.tree "")).productions.toList,
        ∀ alternative ∈ entry.2, "U" ∉ alternative := by
      decide
    rintro lhs alternative ⟨alternatives, hfind, hmem⟩
    exact hnone _ (ArrivalMap.find?_eq_some_iff.1 hfind) alternative hmem
  rcases follow_eq_follows (Node.parse_tokens tangled) hmarker with ⟨_, hfollow⟩
  rw [grammar_ofTree, goal_ofTree] at hfollow
  refine ⟨hmarker, ?_, ?_⟩
  · rcases hfollow "S" (by decide) with ⟨set, hset, hmem, _⟩
    refine ⟨set, hset, (hmem _).2 ?_, (hmem _).2 ?_⟩
    · exact ⟨by decide, "U", by decide, [], [], hunreached⟩
    · exact ⟨"S", hgoal, [], Derives.refl _ ["S"]⟩
  · rcases hfollow "U" (by decide) with ⟨set, hset, _, hnothing⟩
    refine ⟨set, hset, ?_⟩
    intro la hla
    rcases (hnothing hunreferenced la).1 hla with ⟨_, hsame⟩
    exact absurd (hgoal.symm.trans hsame) (by decide)

/-! ## The prediction table -/

/-- In a table without conflicts the lookahead of the rest of the input always predicts the
alternative that a leftmost derivation chooses, so a sentence has at most one such derivation. -/
theorem leftmost_predicted (hparse : Node.parse tokens = .ok tree)
    (hmarker : ∀ t ∈ tokens, t.kind = .symbol → t.value ≠ Lookahead.endMarker)
    (hLL1 : (ofTree tree).predictions.isLL1 = true) :
    ∃ goal, (ofTree tree).goal = some goal ∧
      (∀ (before after input : List String) (lhs : String) (alternatives : List Alternative)
          (place : Nat) (alternative : Alternative) (choices more : List Nat),
        (∀ t ∈ before, t ∈ (ofTree tree).grammar.terminals) →
        (∀ t ∈ input, t ∈ (ofTree tree).grammar.terminals) →
        (ofTree tree).grammar.productions.find? lhs = some alternatives →
        alternatives[place]? = some alternative →
        Leftmost (ofTree tree).grammar.productions [goal] choices (before ++ lhs :: after) →
        Leftmost (ofTree tree).grammar.productions (before ++ alternative ++ after) more
          (before ++ input) →
        (ofTree tree).predictions.get? lhs (Lookahead.ofInput input) = some place) ∧
      ∀ sentence, (∀ t ∈ sentence, t ∈ (ofTree tree).grammar.terminals) →
        ∀ choices choices',
          Leftmost (ofTree tree).grammar.productions [goal] choices sentence →
          Leftmost (ofTree tree).grammar.productions [goal] choices' sentence →
          choices = choices' := by
  have hg := Grammar.consistent_ofTree hparse
  have hunmarked := unmarked_of_parse hparse hmarker
  have hconflicts : (Grammar.ofTree tree).predictions.conflicts = [] := List.isEmpty_iff.1 hLL1
  rcases Grammar.exists_goal_ofTree hparse with ⟨goal, hgoal, _⟩
  rw [grammar_ofTree, predictions_ofTree]
  refine ⟨goal, hgoal, ?_, ?_⟩
  · intro before after input lhs alternatives place alternative choices more hbefore hinput hfind
      hplace hreach hrest
    exact Grammar.get?_predictions_of_leftmost hg hunmarked hconflicts hgoal hreach hbefore hfind
      hplace hinput hrest
  · intro sentence hsentence choices choices' h h'
    exact Grammar.choices_unique_of_leftmost hg hunmarked hconflicts hgoal hsentence h
      (.done [goal]) h'

/-- `S : a S b | EPSILON;` -/
def nested : Outline where
  first := ⟨"S", ":", .names "a" ["S", "b"], [("|", .empty "EPSILON")], ";"⟩
  others := []

theorem leftmost_predicted_nested :
    (∀ t ∈ nested.tokens, t.kind = .symbol → t.value ≠ Lookahead.endMarker) ∧
      (ofTree (nested.tree "")).predictions.isLL1 = true ∧
      (ofTree (nested.tree "")).predictions.get? "S" (Lookahead.ofInput ["b"]) = some 1 ∧
      ∀ choices, Leftmost (ofTree (nested.tree "")).grammar.productions ["S"] choices ["a", "b"] →
        choices = [0, 1] := by
  have hmarker : ∀ t ∈ nested.tokens, t.kind = .symbol → t.value ≠ Lookahead.endMarker := by
    decide
  have hLL1 : (ofTree (nested.tree "")).predictions.isLL1 = true := by decide +kernel
  have hname : (Grammar.ofTree (nested.tree "")).goal? = some "S" := by decide
  have hfind : (Grammar.ofTree (nested.tree "")).productions.find? "S" =
      some [["a", "S", "b"], []] := by
    decide
  have hterminals : ∀ t ∈ ["a", "b"], t ∈ (Grammar.ofTree (nested.tree "")).terminals := by
    decide
  -- The two steps that lead to `a b`. The second is taken in front of the `b`.
  have hwrap : Leftmost (Grammar.ofTree (nested.tree "")).productions ["S"] [0]
      (["a"] ++ "S" :: ["b"]) :=
    .choose [] [] (by decide) hfind rfl (.done ["a", "S", "b"])
  have hlast : Leftmost (Grammar.ofTree (nested.tree "")).productions (["a"] ++ [] ++ ["b"]) []
      (["a"] ++ ["b"]) :=
    .done ["a", "b"]
  have hboth : Leftmost (Grammar.ofTree (nested.tree "")).productions ["S"] [0, 1] ["a", "b"] :=
    hwrap.append (.choose ["a"] ["b"] (by decide) hfind rfl hlast)
  rcases leftmost_predicted (Node.parse_tokens nested) hmarker hLL1 with
    ⟨goal, hgoal, hpredicted, hunique⟩
  rw [grammar_ofTree] at hpredicted hunique ⊢
  obtain rfl : "S" = goal := Option.some.inj (hname.symm.trans hgoal)
  refine ⟨hmarker, hLL1, ?_, ?_⟩
  · exact hpredicted ["a"] ["b"] ["b"] "S" [["a", "S", "b"], []] 1 [] [0] [] (by decide) (by decide)
      hfind rfl hwrap hlast
  · intro choices hchoices
    exact hunique ["a", "b"] hterminals choices [0, 1] hchoices hboth

/-- Left recursion is always reported: if a name derives a form that begins with itself, directly or
through other names or behind names that vanish, and the grammar is reduced, its table has a
conflict. -/
theorem conflicts_of_leftRecursive (hparse : Node.parse tokens = .ok tree)
    (hmarker : ∀ t ∈ tokens, t.kind = .symbol → t.value ≠ Lookahead.endMarker)
    {goal name : String} (hgoal : (ofTree tree).goal = some goal)
    (hreduced : (ofTree tree).grammar.Reduced goal)
    (hrecursive : LeftRecursive (ofTree tree).grammar.productions name) :
    (ofTree tree).predictions.conflicts ≠ [] ∧ (ofTree tree).predictions.isLL1 = false := by
  have hg := Grammar.consistent_ofTree hparse
  have hunmarked := unmarked_of_parse hparse hmarker
  rw [grammar_ofTree] at hunmarked hreduced hrecursive
  rw [goal_ofTree] at hgoal
  rw [predictions_ofTree]
  have hconflicts :=
    Grammar.conflicts_ne_nil_of_leftRecursive hg hunmarked hgoal hreduced hrecursive
  exact ⟨hconflicts, by simpa [PredictionTable.isLL1] using hconflicts⟩

/-- `S : N T x | y; T : S | z; N : n | EPSILON;`, where `S` leads back to itself through `T` and
behind `N`, which may vanish. -/
def hidden : Outline where
  first := ⟨"S", ":", .names "N" ["T", "x"], [("|", .names "y" [])], ";"⟩
  others :=
    [⟨"T", ":", .names "S" [], [("|", .names "z" [])], ";"⟩,
      ⟨"N", ":", .names "n" [], [("|", .empty "EPSILON")], ";"⟩]

theorem conflicts_of_leftRecursive_hidden :
    (∀ t ∈ hidden.tokens, t.kind = .symbol → t.value ≠ Lookahead.endMarker) ∧
      (ofTree (hidden.tree "")).goal = some "S" ∧
      (ofTree (hidden.tree "")).grammar.Reduced "S" ∧
      LeftRecursive (ofTree (hidden.tree "")).grammar.productions "S" ∧
      (ofTree (hidden.tree "")).predictions.conflicts ≠ [] ∧
      (ofTree (hidden.tree "")).predictions.isLL1 = false := by
  have hmarker : ∀ t ∈ hidden.tokens, t.kind = .symbol → t.value ≠ Lookahead.endMarker := by
    decide
  have hgoal : (ofTree (hidden.tree "")).goal = some "S" := by
    rw [goal_ofTree]
    decide
  have hnames : (Grammar.ofTree (hidden.tree "")).nonterminals.toList = ["S", "T", "N"] := by
    decide
  have hS : (Grammar.ofTree (hidden.tree "")).productions.find? "S" =
      some [["N", "T", "x"], ["y"]] := by
    decide
  have hT : (Grammar.ofTree (hidden.tree "")).productions.find? "T" = some [["S"], ["z"]] := by
    decide
  have hN : (Grammar.ofTree (hidden.tree "")).productions.find? "N" = some [["n"], []] := by
    decide
  have hwhole : Offers (Grammar.ofTree (hidden.tree "")).productions "S" ["N", "T", "x"] :=
    ⟨_, hS, by decide⟩
  have hvanish : Offers (Grammar.ofTree (hidden.tree "")).productions "N" [] :=
    ⟨_, hN, by decide⟩
  have hback : Offers (Grammar.ofTree (hidden.tree "")).productions "T" ["S"] :=
    ⟨_, hT, by decide⟩
  have hrecursive : LeftRecursive (ofTree (hidden.tree "")).grammar.productions "S" := by
    rw [grammar_ofTree]
    have hfirst := Relation.TransGen.single (Step.replace [] [] hwhole)
    exact ⟨["x"], (hfirst.tail (Step.replace [] ["T", "x"] hvanish)).tail
      (Step.replace [] ["x"] hback)⟩
  have hreduced : (ofTree (hidden.tree "")).grammar.Reduced "S" := by
    rw [grammar_ofTree]
    refine ⟨?_, ?_⟩
    · intro name hname
      rw [ArrivalSet.mem_def, hnames] at hname
      simp only [List.mem_cons, List.not_mem_nil, or_false] at hname
      rcases hname with rfl | rfl | rfl
      · exact ⟨[], [], Derives.refl _ ["S"]⟩
      · exact ⟨["N"], ["x"], Derives.of_offers hwhole⟩
      · exact ⟨[], ["T", "x"], Derives.of_offers hwhole⟩
    · intro name hname
      rw [ArrivalSet.mem_def, hnames] at hname
      simp only [List.mem_cons, List.not_mem_nil, or_false] at hname
      rcases hname with rfl | rfl | rfl
      · exact ⟨["y"], by decide, Derives.of_offers ⟨_, hS, by decide⟩⟩
      · exact ⟨["z"], by decide, Derives.of_offers ⟨_, hT, by decide⟩⟩
      · exact ⟨["n"], by decide, Derives.of_offers ⟨_, hN, by decide⟩⟩
  exact ⟨hmarker, hgoal, hreduced, hrecursive,
    conflicts_of_leftRecursive (Node.parse_tokens hidden) hmarker hgoal hreduced hrecursive⟩

end Analysis
end BnfGrammar
