import BnfGrammar.Analysis
import BnfGrammar.Proofs.Grammar.OfTree
import BnfGrammar.Proofs.Lookahead.Follow
import BnfGrammar.Proofs.SyntaxTree.Walk

/-!
# Grammars of arbitrary trees

A tree need not come from a parsed text. Ends of alternatives may come before the first left-hand
side, names may stand outside of every production set, and a production set may have several
left-hand sides or none. Drafts keep the left-hand side and the names at hand through all of this.

The grammar of any tree is nearly consistent. Only its keys may be one more than its nonterminals:
alternatives that end before the first left-hand side belong to the empty name. No alternative is
lost or made up, so there are as many as the tree has tails of production sets. The analysis of such
a grammar comes to an end like that of any other.
-/

namespace BnfGrammar

/-! ## Alternatives -/

/-- The alternatives of all left-hand sides. -/
def Productions.alternatives (p : Productions) : List Alternative :=
  p.toList.flatMap Prod.snd

theorem Productions.length_alternatives_alter (p : Productions) (lhs : String)
    (more : List Alternative) :
    (alternatives (p.alter lhs fun found => found.getD [] ++ more)).length =
      (alternatives p).length + more.length := by
  have hlist : ∀ entries : List (String × List Alternative),
      ((ArrivalMap.alterList lhs (fun found => found.getD [] ++ more) entries).flatMap
        Prod.snd).length = (entries.flatMap Prod.snd).length + more.length := by
    intro entries
    induction entries with
    | nil => simp [ArrivalMap.alterList]
    | cons entry rest ih =>
        by_cases hlhs : entry.1 = lhs
        · simp only [ArrivalMap.alterList, if_pos hlhs, List.flatMap_cons, List.length_append,
            Option.getD_some]
          omega
        · simp only [ArrivalMap.alterList, if_neg hlhs, List.flatMap_cons, List.length_append, ih]
          omega
  exact hlist p.toList

/-! ## Drafts -/

namespace Grammar
namespace Draft

open Productions

variable {d : Draft} {name : String}

/-- The nonterminals are the keys, except that the empty name may be a key only. -/
structure Keyed (d : Draft) : Prop where
  lhs_mem : d.lhs ∈ d.nonterminals ∨ d.lhs = ""
  mem_keys : ∀ {name}, name ∈ d.nonterminals → name ∈ d.productions.keys
  mem_nonterminals : ∀ {name}, name ∈ d.productions.keys → name ∈ d.nonterminals ∨ name = ""

/-- Taking in a contribution keeps the keys and the nonterminals together. -/
theorem Keyed.step (h : d.Keyed) (mark : Mark) : (d.read mark).Keyed := by
  cases mark with
  | head lhs =>
      refine ⟨Or.inl (ArrivalSet.mem_insert.2 (Or.inr rfl)), ?_, ?_⟩
      · intro name hname
        rcases ArrivalSet.mem_insert.1 hname with hold | hnew
        · exact ArrivalMap.mem_keys_alter.2 (Or.inl (h.mem_keys hold))
        · exact ArrivalMap.mem_keys_alter.2 (Or.inr hnew)
      · intro name hname
        rcases ArrivalMap.mem_keys_alter.1 hname with hold | hnew
        · exact (h.mem_nonterminals hold).imp_left fun hmem => ArrivalSet.mem_insert.2 (Or.inl hmem)
        · exact Or.inl (ArrivalSet.mem_insert.2 (Or.inr hnew))
  | item other => exact ⟨h.lhs_mem, h.mem_keys, h.mem_nonterminals⟩
  | close =>
      refine ⟨h.lhs_mem, ?_, ?_⟩
      · intro name hname
        exact ArrivalMap.mem_keys_alter.2 (Or.inl (h.mem_keys hname))
      · intro name hname
        -- A new key is the left-hand side at hand.
        rcases ArrivalMap.mem_keys_alter.1 hname with hold | rfl
        · exact h.mem_nonterminals hold
        · exact h.lhs_mem

theorem keyed_empty : ({} : Draft).Keyed := by
  refine ⟨Or.inr rfl, ?_, ?_⟩
  · intro name hname
    cases hname
  · intro name hname
    cases hname

/-- What every contribution keeps is kept by all contributions of a tree. -/
theorem foldl_read_keeps {P : Draft → Prop} (hstep : ∀ d mark, P d → P (d.read mark))
    (marks : List Mark) (hempty : P {}) : P (marks.foldl read {}) :=
  List.foldlRecOn marks read hempty fun d hd mark _ => hstep d mark hd

/-- Each end of an alternative adds one alternative, and nothing else does. -/
theorem length_alternatives_read (d : Draft) (mark : Mark) :
    (alternatives (d.read mark).productions).length =
      (alternatives d.productions).length + [mark].count .close := by
  cases mark with
  | head lhs =>
      have hsame := length_alternatives_alter d.productions lhs []
      simpa [read] using hsame
  | item other => rfl
  | close => exact length_alternatives_alter d.productions d.lhs [d.rhs]

theorem length_alternatives_foldl_read (marks : List Mark) : ∀ d : Draft,
    (alternatives (marks.foldl read d).productions).length =
      (alternatives d.productions).length + marks.count .close := by
  induction marks with
  | nil =>
      intro d
      rfl
  | cons mark marks ih =>
      intro d
      rw [List.foldl_cons, ih, length_alternatives_read, Nat.add_assoc, ← List.count_append]
      rfl

end Draft
end Grammar

/-! ## Ends of alternatives -/

theorem Mark.ofNode?_eq_close_iff {parent : Tag} {n : Node} :
    ofNode? parent n = some .close ↔ n.tag = .rule .productionSetTail := by
  unfold ofNode?
  cases htag : n.tag with
  | token kind =>
      -- A word is a name, below a production set or not, or does not matter.
      cases kind <;> by_cases hparent : parent = .rule .productionSet <;> simp [hparent]
  | rule rule => cases rule <;> simp

/-- The ends of alternatives that a tree contributes are its tails of production sets. -/
theorem Node.count_close_marks (tree : Node) :
    tree.marks.count .close = tree.walk.countP fun n => n.tag = .rule .productionSetTail := by
  rw [marks, walkWithParent, visits_eq_preorder, List.count_filterMap,
    ← map_snd_preorder (fun _ parent => parent.tag) (.rule .grammar), List.countP_map]
  refine List.countP_congr fun entry _ => ?_
  simp [Mark.ofNode?_eq_close_iff]

/-! ## Any tree -/

namespace Grammar

open Productions SetTable

/-- The grammar of any tree: no name is both a nonterminal and a terminal, the names of all
alternatives are listed, the nonterminals are keys, and all keys but the empty name are
nonterminals. Keys are different, and the tails of production sets are counted by the alternatives.
The analysis comes to an end, with FOLLOW sets for just the nonterminals. -/
theorem ofTree_nearly_consistent (tree : Node) :
    (∀ name, ¬ (name ∈ (ofTree tree).nonterminals ∧ name ∈ (ofTree tree).terminals)) ∧
    (∀ lhs alternative, Offers (ofTree tree).productions lhs alternative →
      ∀ name ∈ alternative, name ∈ (ofTree tree).nonterminals ∨ name ∈ (ofTree tree).terminals) ∧
    (∀ name ∈ (ofTree tree).nonterminals, name ∈ (ofTree tree).productions.keys) ∧
    (∀ name ∈ (ofTree tree).productions.keys, name ∈ (ofTree tree).nonterminals ∨ name = "") ∧
    (ofTree tree).productions.keys.Nodup ∧
    (alternatives (ofTree tree).productions).length =
      tree.walk.countP (fun n => n.tag = .rule .productionSetTail) ∧
    RunsTo (ofTree tree).firstPass (ofTree tree).firstStart (Analysis.ofTree tree).first
      (Analysis.ofTree tree).firstPasses ∧
    RunsTo ((ofTree tree).followPass (Analysis.ofTree tree).first)
      ((ofTree tree).followStart (ofTree tree).goal?) (Analysis.ofTree tree).follow
      (Analysis.ofTree tree).followPasses ∧
    (Analysis.ofTree tree).follow.keys = (ofTree tree).nonterminals.toList := by
  have hcovered : (tree.marks.foldl Draft.read {}).Covered :=
    Draft.foldl_read_keeps (fun _ mark h => h.step mark) tree.marks Draft.covered_empty
  have hkeyed : (tree.marks.foldl Draft.read {}).Keyed :=
    Draft.foldl_read_keeps (fun _ mark h => h.step mark) tree.marks Draft.keyed_empty
  have hcount : (alternatives (ofTree tree).productions).length = tree.marks.count .close :=
    (Draft.length_alternatives_foldl_read tree.marks {}).trans (Nat.zero_add _)
  refine ⟨?_, ?_, ?_, ?_, (ofTree tree).productions.nodup, ?_, ?_, ?_, ?_⟩
  · rintro name ⟨hnonterminal, hterminal⟩
    exact Draft.not_mem_nonterminals_of_terminal hterminal hnonterminal
  · intro lhs alternative hoffers name hname
    exact hcovered.isSymbol hoffers hname
  · exact fun name => hkeyed.mem_keys
  · exact fun name => hkeyed.mem_nonterminals
  · rw [hcount, Node.count_close_marks]
  · exact runsTo_firstSets (ofTree tree)
  · exact runsTo_followSets (ofTree tree) _ _
  · exact keys_followSets (ofTree tree) _ _

/-- A tree that no text has: an alternative ends before the first left-hand side, a production set
has two left-hand sides, and a name stands below a tail. -/
def stray : Node :=
  .expansion .grammar
    [.word .symbol "a",
      .expansion .productionSetTail [],
      .expansion .productionSet
        [.word .symbol "S", .word .symbol "T",
          .expansion .productionSetTail [.word .symbol "b"]],
      .expansion .productionSetTail []]

theorem ofTree_nearly_consistent_stray :
    (ofTree stray).productions.toList = [("", [["a"]]), ("S", []), ("T", [[], ["b"]])] ∧
      ("b" ∈ (ofTree stray).nonterminals ∨ "b" ∈ (ofTree stray).terminals) ∧
      "S" ∈ (ofTree stray).productions.keys ∧
      ("T" ∈ (ofTree stray).nonterminals ∨ "T" = "") ∧
      (alternatives (ofTree stray).productions).length = 3 := by
  rcases ofTree_nearly_consistent stray with ⟨_, hclosed, hkey, hnonterminal, _, hcount, _⟩
  have hproductions : (ofTree stray).productions.toList =
      [("", [["a"]]), ("S", []), ("T", [[], ["b"]])] := by decide
  have hoffers : Offers (ofTree stray).productions "T" ["b"] := ⟨[[], ["b"]], by decide, by decide⟩
  exact ⟨hproductions, hclosed "T" ["b"] hoffers "b" (by decide), hkey "S" (by decide),
    hnonterminal "T" (by decide), hcount.trans (by decide)⟩

end Grammar
end BnfGrammar
