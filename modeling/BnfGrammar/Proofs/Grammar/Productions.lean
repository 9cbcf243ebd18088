import BnfGrammar.Proofs.Collections
import BnfGrammar.Proofs.Grammar.OfTree

/-!
# Grammars of production sets

What the grammar of a parsed text is, said without a tree. A text consists of production sets, each
of which has a left-hand side and alternatives. The left-hand sides are the nonterminals, the other
names are the terminals, and a left-hand side has the alternatives of all of its sets in the order
of the text.
-/

namespace BnfGrammar

/-- A left-hand side and the alternatives that one production set gives it. -/
abbrev ProductionSet := String × List Alternative

namespace Outline

/-- What a production set says. -/
def Block.set (b : Block) : ProductionSet :=
  (b.head, b.sides.map Side.alternative)

/-- What the production sets of a text say. -/
def sets (o : Outline) : List ProductionSet :=
  o.blocks.map Block.set

end Outline

namespace Grammar

/-- The grammar of some production sets: names come in the order of their first occurrences, and a
left-hand side has the alternatives of all of its sets. -/
structure Gathers (g : Grammar) (sets : List ProductionSet) : Prop where
  nonterminals_eq : g.nonterminals.toList = (sets.map Prod.fst).eraseDups
  terminals_eq : g.terminals.toList =
    (sets.flatMap fun set => set.2.flatten).eraseDups.filter fun name => name ∉ sets.map Prod.fst
  productions_eq : g.productions.toList = (sets.map Prod.fst).eraseDups.map fun lhs =>
    (lhs, (sets.filter fun set => set.1 = lhs).flatMap Prod.snd)

/-! ## Contributions of production sets -/

namespace Draft

variable {d : Draft} {p : Productions}

/-- The contributions of a production set. -/
def marksOf (set : ProductionSet) : List Mark :=
  .head set.1 :: set.2.flatMap fun alternative => alternative.map Mark.item ++ [.close]

theorem marks_eq_marksOf (b : Outline.Block) : b.marks = marksOf b.set := by
  simp [Outline.Block.marks, marksOf, Outline.Block.set, List.flatMap_map]

theorem foldl_read_items (alternative : Alternative) (d : Draft) :
    (alternative.map Mark.item).foldl read d =
      { d with
        names := alternative.foldl ArrivalSet.insert d.names
        rhs := d.rhs ++ alternative } := by
  induction alternative generalizing d with
  | nil => simp
  | cons name alternative ih => simp [ih, read]

/-- Alternatives join those that their left-hand side has been given before. -/
theorem foldl_read_alternatives (alternatives : List Alternative) :
    ∀ {before d}, d.rhs = [] →
      d.productions = p.alter d.lhs (fun found => found.getD [] ++ before) →
        (alternatives.flatMap fun alternative =>
            alternative.map Mark.item ++ [.close]).foldl read d =
          { d with
            names := alternatives.flatten.foldl ArrivalSet.insert d.names
            productions := p.alter d.lhs fun found =>
              found.getD [] ++ (before ++ alternatives) } := by
  induction alternatives with
  | nil =>
      intro before d _ hproductions
      simp [← hproductions]
  | cons alternative alternatives ih =>
      intro before d hrhs hproductions
      have hmore : (d.productions.alter d.lhs fun found => found.getD [] ++ [alternative]) =
          p.alter d.lhs fun found => found.getD [] ++ (before ++ [alternative]) := by
        simp [hproductions, ArrivalMap.alter_alter]
      rw [List.flatMap_cons, List.foldl_append, List.foldl_append, foldl_read_items, hrhs]
      simp only [List.foldl_cons, List.foldl_nil, List.nil_append, read]
      rw [ih rfl hmore]
      simp

/-- A production set adds its left-hand side, its names and its alternatives. -/
theorem foldl_read_marksOf (set : ProductionSet) (hrhs : d.rhs = []) :
    (marksOf set).foldl read d =
      { lhs := set.1
        rhs := []
        names := set.2.flatten.foldl ArrivalSet.insert d.names
        nonterminals := d.nonterminals.insert set.1
        productions := ArrivalMap.collect Prod.fst Prod.snd d.productions set } := by
  have hhead : (d.read (.head set.1)).productions =
      d.productions.alter (d.read (.head set.1)).lhs fun found => found.getD [] ++ [] := by
    simp [read]
  have hnone : (d.read (.head set.1)).rhs = [] := hrhs
  rw [marksOf, List.foldl_cons, foldl_read_alternatives set.2 hnone hhead]
  simp [read, hrhs, ArrivalMap.collect]

theorem foldl_read_sets (sets : List ProductionSet) : ∀ {d : Draft}, d.rhs = [] →
    ((sets.flatMap marksOf).foldl read d).names =
        (sets.flatMap fun set => set.2.flatten).foldl ArrivalSet.insert d.names ∧
      ((sets.flatMap marksOf).foldl read d).nonterminals =
        (sets.map Prod.fst).foldl ArrivalSet.insert d.nonterminals ∧
      ((sets.flatMap marksOf).foldl read d).productions =
        sets.foldl (ArrivalMap.collect Prod.fst Prod.snd) d.productions := by
  induction sets with
  | nil => simp
  | cons set sets ih =>
      intro d hrhs
      rw [List.flatMap_cons, List.foldl_append, foldl_read_marksOf set hrhs]
      simpa using ih rfl

end Draft

/-! ## Grammars of outlines -/

variable {g : Grammar} {sets : List ProductionSet}

/-- The grammar of the tree of an outline is that of its production sets. -/
theorem gathers_ofTree (o : Outline) (stop : String) : (ofTree (o.tree stop)).Gathers o.sets := by
  have hmarks : (o.tree stop).marks = o.sets.flatMap Draft.marksOf := by
    rw [Outline.marks_tree, Outline.sets, List.flatMap_map, funext Draft.marks_eq_marksOf]
  rcases Draft.foldl_read_sets o.sets (d := {}) rfl with ⟨hnames, hnonterminals, hproductions⟩
  rw [← hmarks] at hnames hnonterminals hproductions
  refine ⟨?_, ?_, ?_⟩
  · exact (congrArg ArrivalSet.toList hnonterminals).trans (ArrivalSet.toList_ofList _)
  · have hheads : ∀ name, name ∈ (((o.tree stop).marks.foldl Draft.read {}).nonterminals) ↔
        name ∈ o.sets.map Prod.fst := by
      rw [hnonterminals]
      exact fun name => ArrivalSet.mem_ofList
    have hlisted : ((o.tree stop).marks.foldl Draft.read {}).names.toList =
        (o.sets.flatMap fun set => set.2.flatten).eraseDups :=
      (congrArg ArrivalSet.toList hnames).trans (ArrivalSet.toList_ofList _)
    simp only [ofTree, Draft.finish, ArrivalSet.filter, hlisted]
    refine List.filter_congr fun name _ => ?_
    rw [decide_not, decide_eq_decide.2 (hheads name)]
  · exact (congrArg ArrivalMap.toList hproductions).trans (ArrivalMap.toList_foldl_collect _ _ _)

theorem Gathers.goal?_eq (h : g.Gathers sets) : g.goal? = sets.head?.map Prod.fst := by
  have hkeys : g.productions.keys = (sets.map Prod.fst).eraseDups := by
    simp [ArrivalMap.keys, h.productions_eq, Function.comp_def]
  rw [goal?, hkeys]
  cases sets with
  | nil => rfl
  | cons set sets => simp [List.eraseDups_cons]

/-! ## Different left-hand sides -/

theorem filter_of_nodup {set : ProductionSet} (hnodup : (sets.map Prod.fst).Nodup)
    (hset : set ∈ sets) : sets.filter (fun other => other.1 = set.1) = [set] := by
  induction sets with
  | nil => cases hset
  | cons first sets ih =>
      rcases List.nodup_cons.1 hnodup with ⟨hfirst, hlater⟩
      rcases List.mem_cons.1 hset with rfl | hset
      · have hnone : sets.filter (fun other => other.1 = set.1) = [] := by
          refine List.filter_eq_nil_iff.2 fun other hother hsame => hfirst ?_
          rw [← of_decide_eq_true hsame]
          exact List.mem_map_of_mem hother
        simp [hnone]
      · have hne : first.1 ≠ set.1 := fun he => hfirst (he ▸ List.mem_map_of_mem hset)
        rw [List.filter_cons_of_neg (by simpa using hne), ih hlater hset]

/-- The productions of a grammar are its production sets if these have different left-hand sides. -/
theorem Gathers.toList_eq_of_nodup (h : g.Gathers sets) (hnodup : (sets.map Prod.fst).Nodup) :
    g.nonterminals.toList = sets.map Prod.fst ∧ g.productions.toList = sets := by
  have hheads := eraseDups_of_nodup hnodup
  -- Every left-hand side has just one set, from which all of its alternatives come.
  have hsingle : ∀ set ∈ sets,
      (set.1, (sets.filter fun other => other.1 = set.1).flatMap Prod.snd) = set := by
    intro set hset
    rw [filter_of_nodup hnodup hset, List.flatMap_singleton]
  refine ⟨h.nonterminals_eq.trans hheads, ?_⟩
  calc
    g.productions.toList = (sets.map Prod.fst).map fun lhs =>
        (lhs, (sets.filter fun set => set.1 = lhs).flatMap Prod.snd) := by
          rw [h.productions_eq, hheads]
    _ = sets.map fun set => (set.1, (sets.filter fun other => other.1 = set.1).flatMap Prod.snd) :=
          List.map_map
    _ = sets.map id := List.map_congr_left hsingle
    _ = sets := List.map_id sets

end Grammar
end BnfGrammar
