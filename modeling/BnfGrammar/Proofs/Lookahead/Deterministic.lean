import BnfGrammar.Proofs.Lookahead.Follow
import BnfGrammar.Proofs.Lookahead.Prediction

/-!
# Leftmost derivations of LL(1) grammars

At every step of a leftmost derivation that ends in terminals, the lookahead is the first terminal
of what the rest of the form is going to become, or the end of the input. The alternative that the
step chooses is always predicted by that lookahead: what it begins with has the lookahead, or it
vanishes and the lookahead follows its left-hand side.

In a table without conflicts the predicted alternative is the one in the cell. Hence two leftmost
derivations of one terminal string cannot choose differently at any step.
-/

namespace BnfGrammar

/-- The lookahead that a terminal string shows. -/
def Lookahead.ofInput : List String → Lookahead
  | [] => .finish
  | t :: _ => .terminal t

namespace Grammar

open Productions SetTable

variable {g : Grammar} {goal lhs : String} {alternative : Alternative} {place : Nat}
  {before after input : List String}

/-- The prediction table of a grammar by its own FIRST and FOLLOW sets. -/
def predictions (g : Grammar) : PredictionTable :=
  PredictionTable.build g.productions g.firstSets.1 (g.followSets g.firstSets.1 g.goal?).1

/-- An alternative that is used on the way from the goal to an input is predicted by the part of
the input that is derived from the alternative and what stands behind it. -/
theorem mem_firstPlus_of_derives (hg : g.Consistent)
    (hunmarked : ¬ g.IsSymbol Lookahead.endMarker) (hgoal : g.goal? = some goal)
    (hreach : Derives g.productions [goal] (before ++ lhs :: after))
    (hoffers : Offers g.productions lhs alternative)
    (hinput : ∀ t ∈ input, t ∈ g.terminals)
    (hderives : Derives g.productions (alternative ++ after) input) :
    Lookahead.ofInput input ∈
      firstPlus g.firstSets.1 (g.followSets g.firstSets.1 g.goal?).1 lhs alternative := by
  have hlhs : lhs ∈ g.nonterminals := hg.lhs_mem hoffers
  have hgoalMem : goal ∈ g.nonterminals := hg.goal_mem hgoal
  have hafter : ∀ name ∈ after, g.IsSymbol name := by
    intro name hname
    apply hg.symbols_of_derives hreach ?_ name (by simp [hname])
    intro n hn
    exact Or.inl (List.mem_singleton.1 hn ▸ hgoalMem)
  cases input with
  | nil =>
      have hbegins : .epsilon ∈ firstOf g.firstSets.1 (alternative ++ after) :=
        mem_firstOf_of_begins hg hunmarked hderives
      rcases mem_firstOf_append.1 hbegins with ⟨_, hne⟩ | ⟨hvanish, hepsilon⟩
      · exact absurd rfl hne
      · -- All that stands behind the left-hand side vanishes, so the end follows it.
        have hempty : Derives g.productions after [] :=
          (mem_firstOf_firstSets_iff hg hunmarked hafter).1 hepsilon
        have hend : Derives g.productions [goal] (before ++ [lhs]) :=
          calc
            Derives g.productions [goal] (before ++ lhs :: after) := hreach
            Derives g.productions _ (before ++ [lhs]) := by
              simpa using hempty.append_left (before ++ [lhs])
        have hfollow : g.Follows lhs .finish := ⟨goal, hgoal, before, hend⟩
        exact mem_firstPlus.2 (Or.inr ⟨hvanish, (mem_followSets_iff hg hunmarked hlhs).2 hfollow⟩)
  | cons t rest =>
      have ht : t ∈ g.terminals := hinput t List.mem_cons_self
      have hbegins : .terminal t ∈ firstOf g.firstSets.1 (alternative ++ after) :=
        mem_firstOf_of_begins hg hunmarked ⟨ht, rest, hderives⟩
      rcases mem_firstOf_append.1 hbegins with hfirst | ⟨hvanish, hmem⟩
      · exact mem_firstPlus.2 (Or.inl hfirst)
      · -- What stands behind the left-hand side begins with the terminal, so the terminal follows.
        have hjustified : g.Begins after (.terminal t) :=
          (mem_firstOf_firstSets_iff hg hunmarked hafter).1 hmem
        rcases hjustified with ⟨_, more, hmore⟩
        have hnext : Derives g.productions [goal] (before ++ lhs :: t :: more) :=
          calc
            Derives g.productions [goal] (before ++ lhs :: after) := hreach
            Derives g.productions _ (before ++ lhs :: t :: more) := by
              simpa using hmore.append_left (before ++ [lhs])
        have hfollow : g.Follows lhs (.terminal t) := ⟨ht, goal, hgoalMem, before, more, hnext⟩
        exact mem_firstPlus.2 (Or.inr ⟨hvanish, (mem_followSets_iff hg hunmarked hlhs).2 hfollow⟩)

/-- A table without conflicts predicts every step of a leftmost derivation. -/
theorem get?_predictions_of_leftmost (hg : g.Consistent)
    (hunmarked : ¬ g.IsSymbol Lookahead.endMarker) (hLL1 : g.predictions.conflicts = [])
    (hgoal : g.goal? = some goal) {alternatives : List Alternative} {choices more : List Nat}
    (hreach : Leftmost g.productions [goal] choices (before ++ lhs :: after))
    (hbefore : ∀ t ∈ before, t ∈ g.terminals)
    (hfind : g.productions.find? lhs = some alternatives)
    (hplace : alternatives[place]? = some alternative)
    (hinput : ∀ t ∈ input, t ∈ g.terminals)
    (hrest : Leftmost g.productions (before ++ alternative ++ after) more (before ++ input)) :
    g.predictions.get? lhs (Lookahead.ofInput input) = some place := by
  have hfront : ∀ t ∈ before, t ∉ g.productions.keys :=
    fun t ht => hg.not_mem_keys_of_terminal (hbefore t ht)
  have hwhole : Derives g.productions (before ++ (alternative ++ after)) (before ++ input) := by
    simpa using hrest.derives
  -- The terminals in front stay, so the rest of the input comes from the alternative and its rest.
  rcases hwhole.strip hfront with ⟨rest, hsame, hderives⟩
  obtain rfl : input = rest := List.append_cancel_left hsame
  apply PredictionTable.get?_build_of_mem_firstPlus hLL1 hfind hplace
  exact mem_firstPlus_of_derives hg hunmarked hgoal hreach.derives
    (offers_of_getElem? hfind hplace) hinput hderives

/-- Two leftmost derivations of one terminal string from a form that the goal reaches are the same,
if the table has no conflicts. -/
theorem choices_unique_of_leftmost (hg : g.Consistent)
    (hunmarked : ¬ g.IsSymbol Lookahead.endMarker) (hLL1 : g.predictions.conflicts = [])
    (hgoal : g.goal? = some goal) {form sentence : List String} {choices : List Nat}
    (hsentence : ∀ t ∈ sentence, t ∈ g.terminals)
    (h : Leftmost g.productions form choices sentence) :
    ∀ {before other : List Nat}, Leftmost g.productions [goal] before form →
      Leftmost g.productions form other sentence → choices = other := by
  have hterminal : ∀ t ∈ sentence, t ∉ g.productions.keys :=
    fun t ht => hg.not_mem_keys_of_terminal (hsentence t ht)
  -- By induction on the first derivation, with the second and the way to the form generalized.
  induction h with
  | done form =>
      intro _ other _ hother
      exact (hother.choices_eq_nil hterminal).symm
  | @choose front back form lhs alternatives alternative place choices hfront hfind hplace hrest ih =>
      intro before other hreach hother
      have hlhs : lhs ∈ g.productions.keys := ArrivalMap.mem_keys_iff.2 ⟨alternatives, hfind⟩
      generalize hform : front ++ lhs :: back = whole at hother
      cases hother with
      | done =>
          -- The form still has a left-hand side, so it is not the sentence yet.
          have hmem : lhs ∈ form := hform ▸ List.mem_append_right front List.mem_cons_self
          exact absurd hlhs (hterminal lhs hmem)
      | @choose front' back' _ lhs' alternatives' alternative' place' choices' hfront' hfind' hplace'
          hrest' =>
          have hlhs' : lhs' ∈ g.productions.keys :=
            ArrivalMap.mem_keys_iff.2 ⟨alternatives', hfind'⟩
          -- Both replace the same left-hand side, and the table has one cell for both choices.
          rcases eq_of_first_lhs hform hfront hlhs hfront' hlhs' with ⟨rfl, rfl, rfl⟩
          obtain rfl : alternatives = alternatives' := by
            simpa [hfind] using hfind'
          have hwhole : Derives g.productions (front ++ (alternative ++ back)) form := by
            simpa using hrest.derives
          rcases hwhole.strip hfront with ⟨input, rfl, _⟩
          have hfrontTerminal : ∀ t ∈ front, t ∈ g.terminals :=
            fun t ht => hsentence t (List.mem_append_left input ht)
          have hinput : ∀ t ∈ input, t ∈ g.terminals :=
            fun t ht => hsentence t (List.mem_append_right front ht)
          have hcell := get?_predictions_of_leftmost hg hunmarked hLL1 hgoal hreach hfrontTerminal
            hfind hplace hinput hrest
          have hcell' := get?_predictions_of_leftmost hg hunmarked hLL1 hgoal hreach hfrontTerminal
            hfind hplace' hinput hrest'
          obtain rfl : place = place' := by
            simpa [hcell] using hcell'
          obtain rfl : alternative = alternative' := by
            simpa [hplace] using hplace'
          have hstep : Leftmost g.productions (front ++ lhs :: back) [place]
              (front ++ alternative ++ back) :=
            .choose front back hfront hfind hplace (.done _)
          rw [ih hsentence hterminal (hreach.append hstep) hrest']

end Grammar
end BnfGrammar
