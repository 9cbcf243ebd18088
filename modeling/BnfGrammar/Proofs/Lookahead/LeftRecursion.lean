import BnfGrammar.Proofs.Lookahead.Deterministic

/-!
# Left recursion and prediction tables

A nonterminal is left-recursive if it derives, in one step or more, a form that begins with itself:
directly, through other nonterminals, or behind names that vanish. This file shows that the table of
a reduced grammar with a left-recursive nonterminal has conflicts.

* Let an alternative of a left-recursive nonterminal lead back to it. Then some name in that
  alternative is left-recursive too.
* Without conflicts no other alternative can be the one that generates terminals. For in front of
  what the recursion leaves behind, the nonterminal may either be done with by that other
  alternative or go round once more before, and the input shows the same lookahead both times.
* So a left-recursive nonterminal generates terminals only by way of another one, by a smaller
  derivation. By induction it generates none, but in a reduced grammar all nonterminals do.
-/

namespace BnfGrammar
namespace Productions

variable {p : Productions} {form rest sentence : List String} {name lhs : String}
  {alternative : Alternative}

/-! ## Left recursion -/

/-- A name derives, in one step or more, a form that begins with it. -/
def LeftRecursive (p : Productions) (name : String) : Prop :=
  ∃ rest, Relation.TransGen (Step p) [name] (name :: rest)

/-- Only a left-hand side can be replaced, so a single name makes way for an alternative. -/
theorem offers_of_step_singleton (h : Step p [lhs] form) : Offers p lhs form := by
  generalize hwhole : [lhs] = whole at h
  cases h with
  | @replace before after lhs' alternative hoffers =>
      rcases List.append_eq_singleton_iff.1 hwhole.symm with ⟨rfl, hlhs⟩ | ⟨_, hnil⟩
      · obtain ⟨rfl, rfl⟩ := List.cons.inj hlhs
        simpa using hoffers
      · cases hnil

theorem LeftRecursive.exists_alternative (h : LeftRecursive p name) :
    ∃ alternative rest, Offers p name alternative ∧ Derives p alternative (name :: rest) := by
  rcases h with ⟨rest, hrest⟩
  rcases Relation.TransGen.head'_iff.1 hrest with ⟨alternative, hstep, hderives⟩
  exact ⟨alternative, rest, offers_of_step_singleton hstep, hderives⟩

/-- A form that derives one that begins with a name has a corner: a name that does so alone, with
only vanishing names before it. -/
theorem Derives.exists_corner :
    ∀ {form : List String}, Derives p form (name :: rest) →
      ∃ before corner after more, form = before ++ corner :: after ∧ Derives p before [] ∧
        Derives p [corner] (name :: more) := by
  intro form
  induction form with
  | nil =>
      intro h
      cases h.eq_nil_of_nil
  | cons first form ih =>
      intro h
      have hcut : Derives p ([first] ++ form) (name :: rest) := h
      rcases hcut.exists_append with ⟨front, back, hwhole, hfront, hback⟩
      -- Either the first name vanishes and the corner is behind it, or it is the corner.
      cases front with
      | nil =>
          obtain rfl : name :: rest = back := hwhole
          rcases ih hback with ⟨before, corner, after, more, rfl, hbefore, hcorner⟩
          exact ⟨first :: before, corner, after, more, rfl, hfront.append hbefore, hcorner⟩
      | cons n more =>
          obtain ⟨rfl, _⟩ := List.cons.inj hwhole
          exact ⟨[], first, form, more, rfl, refl p [], hfront⟩

/-- An alternative that leads back to its left-hand side has a left-recursive name. -/
theorem Offers.exists_leftRecursive (hoffers : Offers p lhs alternative)
    (h : Derives p alternative (lhs :: rest)) : ∃ name ∈ alternative, LeftRecursive p name := by
  rcases h.exists_corner with ⟨before, corner, after, more, rfl, hbefore, hcorner⟩
  refine ⟨corner, by simp, after ++ more, ?_⟩
  -- The corner leads to the left-hand side, and its alternative leads back to the corner.
  have hstep : Step p (lhs :: more) (before ++ corner :: after ++ more) :=
    Step.replace [] more hoffers
  have hback : Derives p (before ++ corner :: after ++ more) (corner :: (after ++ more)) := by
    simpa using hbefore.append_right (corner :: (after ++ more))
  exact (Relation.TransGen.tail' hcorner hstep).trans_left hback

/-! ## Generated sentences -/

/-- A form generates a sentence name by name: each left-hand side by one of its alternatives, and
the other names stay. -/
inductive Generates (p : Productions) : List String → List String → Prop
  | nil : Generates p [] []
  | keep {name : String} {form sentence : List String} : name ∉ p.keys →
      Generates p form sentence → Generates p (name :: form) (name :: sentence)
  | expand {lhs : String} {alternative : Alternative} {form front back : List String} :
      Offers p lhs alternative → Generates p alternative front → Generates p form back →
        Generates p (lhs :: form) (front ++ back)

namespace Generates

theorem derives (h : Generates p form sentence) : Derives p form sentence := by
  induction h with
  | nil => exact Derives.refl p []
  | @keep name _ _ _ _ ih => exact ih.append_left [name]
  | expand hoffers _ _ ih ihRest =>
      exact ((Derives.of_offers hoffers).trans ih).append ihRest

theorem of_terminals (h : ∀ name ∈ sentence, name ∉ p.keys) : Generates p sentence sentence := by
  induction sentence with
  | nil => exact nil
  | cons name sentence ih =>
      rcases List.forall_mem_cons.1 h with ⟨hname, hrest⟩
      exact keep hname (ih hrest)

theorem exists_append {a b : List String} :
    ∀ {sentence : List String}, Generates p (a ++ b) sentence →
      ∃ front back, sentence = front ++ back ∧ Generates p a front ∧ Generates p b back := by
  induction a with
  | nil =>
      intro sentence h
      exact ⟨[], sentence, rfl, nil, h⟩
  | cons name a ih =>
      intro sentence h
      cases h with
      | keep hname h =>
          rcases ih h with ⟨front, back, rfl, hfront, hback⟩
          exact ⟨name :: front, back, rfl, keep hname hfront, hback⟩
      | @expand _ _ _ start _ hoffers hstart h =>
          rcases ih h with ⟨front, back, rfl, hfront, hback⟩
          exact ⟨start ++ front, back, by simp, expand hoffers hstart hfront, hback⟩

theorem append {a b front back : List String} (ha : Generates p a front)
    (hb : Generates p b back) : Generates p (a ++ b) (front ++ back) := by
  induction ha with
  | nil => exact hb
  | keep hname _ ih => exact keep hname ih
  | expand hoffers hstart _ _ ih =>
      rw [List.append_assoc]
      exact expand hoffers hstart ih

/-- A sentence that is derived is generated. -/
theorem of_derives (hsentence : ∀ name ∈ sentence, name ∉ p.keys) (h : Derives p form sentence) :
    Generates p form sentence := by
  -- By induction from the last form back to the first, undoing one step at a time.
  induction h using Relation.ReflTransGen.head_induction_on with
  | refl => exact of_terminals hsentence
  | head hstep _ ih =>
      cases hstep with
      | replace before after hoffers =>
          rw [List.append_assoc] at ih
          rcases exists_append ih with ⟨front, others, rfl, hfront, hothers⟩
          rcases exists_append hothers with ⟨middle, back, rfl, hmiddle, hback⟩
          exact hfront.append (expand hoffers hmiddle hback)

end Generates
end Productions

/-! ## Conflicts -/

namespace Grammar

open Productions SetTable

variable {g : Grammar} {goal lhs : String} {la : Lookahead}

/-- Every nonterminal occurs in a form that the goal derives and derives some sentence. -/
structure Reduced (g : Grammar) (goal : String) : Prop where
  reachable : ∀ name ∈ g.nonterminals,
    ∃ before after, Derives g.productions [goal] (before ++ name :: after)
  productive : ∀ name ∈ g.nonterminals,
    ∃ sentence, (∀ t ∈ sentence, t ∈ g.terminals) ∧ Derives g.productions [name] sentence

theorem Reduced.exists_sentence (h : g.Reduced goal) {form : List String}
    (hform : ∀ name ∈ form, g.IsSymbol name) :
    ∃ sentence, (∀ t ∈ sentence, t ∈ g.terminals) ∧ Derives g.productions form sentence := by
  induction form with
  | nil => exact ⟨[], by simp, Derives.refl _ []⟩
  | cons name form ih =>
      rcases List.forall_mem_cons.1 hform with ⟨hname, hrest⟩
      rcases ih hrest with ⟨back, hback, hderives⟩
      have hfirst : ∃ front, (∀ t ∈ front, t ∈ g.terminals) ∧
          Derives g.productions [name] front := by
        rcases hname with hname | hname
        · exact h.productive name hname
        · exact ⟨[name], by simpa using hname, Derives.refl _ [name]⟩
      rcases hfirst with ⟨front, hfront, hfirst⟩
      refine ⟨front ++ back, ?_, hfirst.append hderives⟩
      simpa only [List.forall_mem_append] using ⟨hfront, hback⟩

/-- In a table without conflicts a lookahead predicts at most one alternative. -/
theorem eq_of_mem_firstPlus {a b : Alternative} (hLL1 : g.predictions.conflicts = [])
    (ha : Offers g.productions lhs a) (hb : Offers g.productions lhs b)
    (hlaA : la ∈ firstPlus g.firstSets.1 (g.followSets g.firstSets.1 g.goal?).1 lhs a)
    (hlaB : la ∈ firstPlus g.firstSets.1 (g.followSets g.firstSets.1 g.goal?).1 lhs b) :
    a = b := by
  rcases ha with ⟨alternatives, hfind, hmem⟩
  rcases hb with ⟨alternatives', hfind', hmem'⟩
  obtain rfl : alternatives = alternatives' := by
    simpa [hfind] using hfind'
  rcases List.mem_iff_getElem?.1 hmem with ⟨place, hplace⟩
  rcases List.mem_iff_getElem?.1 hmem' with ⟨place', hplace'⟩
  have hcell := PredictionTable.get?_build_of_mem_firstPlus hLL1 hfind hplace hlaA
  have hcell' := PredictionTable.get?_build_of_mem_firstPlus hLL1 hfind hplace' hlaB
  obtain rfl : place = place' := by
    simpa [hcell] using hcell'
  simpa [hplace] using hplace'

theorem ofInput_append_twice (u y z : List String) :
    Lookahead.ofInput (u ++ (y ++ (y ++ z))) = Lookahead.ofInput (u ++ (y ++ z)) := by
  cases u with
  | cons t u => rfl
  | nil =>
      cases y with
      | cons t y => rfl
      | nil => rfl

/-- If an alternative of a left-hand side generates terminals and another one leads back to the
left-hand side, then both are predicted by the same lookahead. -/
theorem eq_of_leads_back (hg : g.Consistent) (hunmarked : ¬ g.IsSymbol Lookahead.endMarker)
    (hLL1 : g.predictions.conflicts = []) (hgoal : g.goal? = some goal) (hreduced : g.Reduced goal)
    {ends leads : Alternative} {rest sentence : List String}
    (hends : Offers g.productions lhs ends) (hsentence : ∀ t ∈ sentence, t ∈ g.terminals)
    (hderives : Derives g.productions ends sentence) (hleads : Offers g.productions lhs leads)
    (hback : Derives g.productions leads (lhs :: rest)) : ends = leads := by
  have hlhs : lhs ∈ g.nonterminals := hg.lhs_mem hends
  have hgoalMem : goal ∈ g.nonterminals := hg.goal_mem hgoal
  rcases hreduced.reachable lhs hlhs with ⟨before, after, hreach⟩
  have hagain : Derives g.productions [lhs] (lhs :: rest) :=
    (Derives.of_offers hleads).trans hback
  -- Gone round once, the left-hand side stands in front of what the recursion leaves behind.
  have hreach' : Derives g.productions [goal] (before ++ lhs :: (rest ++ after)) :=
    calc
      Derives g.productions [goal] (before ++ lhs :: after) := hreach
      Derives g.productions _ (before ++ lhs :: (rest ++ after)) := by
        simpa using (hagain.append_right after).append_left before
  have hsymbols : ∀ name ∈ before ++ lhs :: (rest ++ after), g.IsSymbol name := by
    refine hg.symbols_of_derives hreach' ?_
    intro n hn
    exact Or.inl (List.mem_singleton.1 hn ▸ hgoalMem)
  simp only [List.forall_mem_append, List.forall_mem_cons] at hsymbols
  rcases hreduced.exists_sentence hsymbols.2.2.1 with ⟨y, hy, hrest⟩
  rcases hreduced.exists_sentence hsymbols.2.2.2 with ⟨z, hz, hafter⟩
  -- It may be done with there, or go round once more.
  have hdone : Derives g.productions (ends ++ (rest ++ after)) (sentence ++ (y ++ z)) :=
    hderives.append (hrest.append hafter)
  have hround : Derives g.productions (leads ++ (rest ++ after)) (sentence ++ (y ++ (y ++ z))) :=
    calc
      Derives g.productions (leads ++ (rest ++ after)) (lhs :: rest ++ (rest ++ after)) :=
        hback.append_right _
      Derives g.productions _ (ends ++ rest ++ (rest ++ after)) := by
        simpa using (Derives.of_offers hends).append_right (rest ++ (rest ++ after))
      Derives g.productions _ (sentence ++ (y ++ (y ++ z))) := by
        simpa using hderives.append (hrest.append (hrest.append hafter))
  have hinput : ∀ t ∈ sentence ++ (y ++ z), t ∈ g.terminals := by
    simp only [List.forall_mem_append]
    exact ⟨hsentence, hy, hz⟩
  have hinput' : ∀ t ∈ sentence ++ (y ++ (y ++ z)), t ∈ g.terminals := by
    simp only [List.forall_mem_append]
    exact ⟨hsentence, hy, hy, hz⟩
  have hfirst := mem_firstPlus_of_derives hg hunmarked hgoal hreach' hends hinput hdone
  have hsecond := mem_firstPlus_of_derives hg hunmarked hgoal hreach' hleads hinput' hround
  rw [ofInput_append_twice] at hsecond
  exact eq_of_mem_firstPlus hLL1 hends hleads hfirst hsecond

/-- Without conflicts no form with a left-recursive name generates terminals. -/
theorem not_leftRecursive_of_generates (hg : g.Consistent)
    (hunmarked : ¬ g.IsSymbol Lookahead.endMarker) (hLL1 : g.predictions.conflicts = [])
    (hgoal : g.goal? = some goal) (hreduced : g.Reduced goal) {form sentence : List String}
    (h : Generates g.productions form sentence) :
    (∀ t ∈ sentence, t ∈ g.terminals) →
      ∀ name ∈ form, ¬ LeftRecursive g.productions name := by
  induction h with
  | nil => simp
  | keep hname _ ih =>
      intro hsentence
      rcases List.forall_mem_cons.1 hsentence with ⟨_, hrest⟩
      refine List.forall_mem_cons.2 ⟨?_, ih hrest⟩
      -- A name without alternatives derives nothing but itself.
      intro hrecursive
      rcases hrecursive.exists_alternative with ⟨alternative, _, hoffers, _⟩
      exact hname hoffers.mem_keys
  | @expand lhs alternative form front back hoffers hfront _ ih ihRest =>
      intro hsentence
      rcases List.forall_mem_append.1 hsentence with ⟨hfrontTerminal, hbackTerminal⟩
      refine List.forall_mem_cons.2 ⟨?_, ihRest hbackTerminal⟩
      -- The alternative would be the one that leads back, and so have a left-recursive name.
      intro hrecursive
      rcases hrecursive.exists_alternative with ⟨leads, rest, hleads, hback⟩
      obtain rfl : alternative = leads :=
        eq_of_leads_back hg hunmarked hLL1 hgoal hreduced hoffers hfrontTerminal hfront.derives
          hleads hback
      rcases hoffers.exists_leftRecursive hback with ⟨name, hname, hname'⟩
      exact ih hfrontTerminal name hname hname'

/-- The table of a reduced grammar with a left-recursive nonterminal has conflicts. -/
theorem conflicts_ne_nil_of_leftRecursive (hg : g.Consistent)
    (hunmarked : ¬ g.IsSymbol Lookahead.endMarker) (hgoal : g.goal? = some goal)
    (hreduced : g.Reduced goal) (h : LeftRecursive g.productions lhs) :
    g.predictions.conflicts ≠ [] := by
  intro hLL1
  rcases h.exists_alternative with ⟨alternative, _, hoffers, _⟩
  rcases hreduced.productive lhs (hg.lhs_mem hoffers) with ⟨sentence, hsentence, hderives⟩
  have hgenerates : Generates g.productions [lhs] sentence :=
    .of_derives (fun t ht => hg.not_mem_keys_of_terminal (hsentence t ht)) hderives
  exact not_leftRecursive_of_generates hg hunmarked hLL1 hgoal hreduced hgenerates hsentence lhs
    (List.mem_singleton_self lhs) h

end Grammar
end BnfGrammar
