import BnfGrammar.Lookahead.Follow
import BnfGrammar.Proofs.Lookahead.First

/-!
# FOLLOW sets by derivations

What may come after a nonterminal is defined by derivations: `Grammar.Follows` holds of the
terminals that stand right after it in a form derived from some nonterminal, whether the goal can
reach that nonterminal or not, and of the end of the input if the nonterminal ends a form derived
from the goal.

The FOLLOW sets of a consistent grammar hold exactly what is defined in this way.

* The trailer that is kept while an alternative is read from right to left holds what the symbols
  read so far begin with, and if they may vanish, also what it started with.
* Soundness is an invariant of the passes, by putting the derivation that justifies a member of the
  trailer behind the symbol.
* Completeness needs only that one more pass changes nothing. `Grammar.Accounts` says of a form that
  the table accounts for all neighbours in it: the set of each nonterminal in the form has all that
  the rest of the form begins with, and all of some base set if that rest may vanish. A step of a
  derivation keeps this, so every form derived from a left-hand side is accounted for over the
  FOLLOW set of that left-hand side.
-/

namespace BnfGrammar
namespace Grammar

open Productions SetTable

variable {g : Grammar} {first follow : SetTable} {form form' rest : List String} {name : String}
  {start : LookaheadSet} {la : Lookahead}

/-! ## What may follow a nonterminal -/

/-- What may come after a nonterminal: a terminal next to it in a form derived from a nonterminal,
or the end of the input if it ends a form derived from the goal. Nothing is no such thing. -/
def Follows (g : Grammar) (name : String) : Lookahead → Prop
  | .finish => ∃ goal, g.goal? = some goal ∧
      ∃ before, Derives g.productions [goal] (before ++ [name])
  | .epsilon => False
  | .terminal t => t ∈ g.terminals ∧ ∃ lhs ∈ g.nonterminals,
      ∃ before after, Derives g.productions [lhs] (before ++ name :: t :: after)

/-! ## The trailer -/

/-- The trailer after a form has been read from right to left. -/
def trailer (g : Grammar) (first : SetTable) (form : List String) (start : LookaheadSet) :
    LookaheadSet :=
  form.foldr (g.trailerBefore first) start

theorem snd_foldr_followSymbol (g : Grammar) (first follow : SetTable) (form : List String)
    (start : LookaheadSet) :
    (form.foldr (g.followSymbol first) (follow, start)).2 = g.trailer first form start := by
  induction form with
  | nil => rfl
  | cons name rest ih =>
      change g.trailerBefore first name (rest.foldr (g.followSymbol first) (follow, start)).2 = _
      rw [ih]
      rfl

/-- A symbol that may vanish extends the trailer, and any other hides it. -/
theorem mem_trailerBefore_iff {set : LookaheadSet} :
    la ∈ g.trailerBefore first name set ↔
      if name ∈ g.nonterminals ∧ .epsilon ∈ members first name then
        la ∈ set ∨ (la ∈ members first name ∧ la ≠ .epsilon)
      else la ∈ members first name := by
  by_cases hvanish : name ∈ g.nonterminals ∧ .epsilon ∈ members first name
  · have hbefore : g.trailerBefore first name set = set ∪ (members first name).erase .epsilon :=
      if_pos hvanish
    rw [hbefore, if_pos hvanish, Std.ExtTreeSet.mem_union_iff, LookaheadSet.mem_erase_iff]
  · have hbefore : g.trailerBefore first name set = members first name := if_neg hvanish
    rw [hbefore, if_neg hvanish]

theorem mem_trailerBefore (hsolid : g.SolidTerminals first) {set : LookaheadSet} :
    la ∈ g.trailerBefore first name set ↔
      (la ∈ members first name ∧ la ≠ .epsilon) ∨ (.epsilon ∈ members first name ∧ la ∈ set) := by
  rw [mem_trailerBefore_iff]
  by_cases hepsilon : .epsilon ∈ members first name
  · rw [if_pos ⟨hsolid name hepsilon, hepsilon⟩]
    tauto
  · have hne : la ∈ members first name → la ≠ .epsilon := fun hla he => hepsilon (he ▸ hla)
    rw [if_neg fun h => hepsilon h.2]
    tauto

theorem mem_trailer (hsolid : g.SolidTerminals first) :
    la ∈ g.trailer first form start ↔
      (la ∈ firstOf first form ∧ la ≠ .epsilon) ∨
        (.epsilon ∈ firstOf first form ∧ la ∈ start) := by
  induction form with
  | nil =>
      have hnil : g.trailer first [] start = start := rfl
      simp [hnil, mem_firstOf_nil]
  | cons name rest ih =>
      have hcons : g.trailer first (name :: rest) start =
          g.trailerBefore first name (g.trailer first rest start) := rfl
      rw [hcons, mem_trailerBefore hsolid, ih, mem_firstOf_cons, mem_firstOf_cons]
      tauto

/-! ## Passes -/

theorem below_followSymbol (state : SetTable × LookaheadSet) :
    Below state.1 (g.followSymbol first name state).1 := by
  by_cases hname : name ∈ g.nonterminals
  · simpa [followSymbol, hname] using below_grow state.1 name state.2
  · simpa [followSymbol, hname] using Below.refl state.1

theorem below_foldr_followSymbol (form : List String) (state : SetTable × LookaheadSet) :
    Below state.1 (form.foldr (g.followSymbol first) state).1 := by
  -- A fold from the right takes the last symbol first, so the head of the form is the last step.
  induction form with
  | nil => exact Below.refl state.1
  | cons name rest ih => exact ih.trans (below_followSymbol _)

theorem below_followAlternative (g : Grammar) (first : SetTable) (lhs : String) (table : SetTable)
    (alternative : Alternative) : Below table (g.followAlternative first lhs table alternative) :=
  below_foldr_followSymbol alternative (table, members table lhs)

theorem below_followProduction (g : Grammar) (first table : SetTable)
    (production : String × List Alternative) :
    Below table (production.2.foldl (g.followAlternative first production.1) table) :=
  below_foldl (below_followAlternative g first production.1) production.2 table

theorem below_followPass (g : Grammar) (first table : SetTable) :
    Below table (g.followPass first table) :=
  below_foldl (below_followProduction g first) g.productions.toList table

/-! ## Convergence -/

/-- The lookaheads that FOLLOW sets can hold. -/
def followLookaheads (first : SetTable) : Finset Lookahead :=
  insert .finish ((entries first).image Prod.snd)

theorem mem_followLookaheads_of_mem_first (h : la ∈ members first name) :
    la ∈ followLookaheads first :=
  Finset.mem_insert_of_mem (Finset.mem_image.2 ⟨(name, la), mem_entries.2 h, rfl⟩)

theorem card_followBound_lt (g : Grammar) (first : SetTable) :
    g.nonterminals.toList.toFinset.card * (followLookaheads first).card < g.followLimit first := by
  have hnames := List.toFinset_card_le g.nonterminals.toList
  have hlookaheads : (followLookaheads first).card ≤
      first.toList.foldl (fun total row => total + row.2.size) 0 + 1 := by
    have hinsert := Finset.card_insert_le Lookahead.finish ((entries first).image Prod.snd)
    have himage := Finset.card_image_le (s := entries first) (f := Prod.snd)
    have hentries := card_entries_le_foldl first
    simp only [followLookaheads]
    omega
  exact Nat.lt_succ_of_le (Nat.mul_le_mul hnames hlookaheads)

/-- The table of empty sets for the nonterminals. -/
def emptySets (g : Grammar) : SetTable :=
  g.nonterminals.toList.foldl (fun table name => table.insert name ∅) ∅

theorem find?_emptySets (g : Grammar) (name : String) :
    g.emptySets.find? name = if name ∈ g.nonterminals then some ∅ else none := by
  rw [emptySets, ArrivalMap.find?_foldl_insert (fun _ : String => (∅ : LookaheadSet))]
  rfl

theorem mem_keys_emptySets : name ∈ g.emptySets.keys ↔ name ∈ g.nonterminals := by
  rw [ArrivalMap.mem_keys_iff, find?_emptySets]
  by_cases hname : name ∈ g.nonterminals <;> simp [hname]

theorem not_mem_members_emptySets : la ∉ members g.emptySets name := by
  rw [members, find?_emptySets]
  by_cases hname : name ∈ g.nonterminals <;> simp [hname]

theorem followStart_some (g : Grammar) (goal : String) :
    g.followStart (some goal) = grow g.emptySets goal {.finish} :=
  rfl

theorem followStart_none (g : Grammar) : g.followStart none = g.emptySets :=
  rfl

theorem mem_keys_followStart {goal : Option String} :
    name ∈ (g.followStart goal).keys ↔ name ∈ g.nonterminals := by
  cases goal with
  | none => rw [followStart_none, mem_keys_emptySets]
  | some goal => rw [followStart_some, keys_grow, mem_keys_emptySets]

theorem mem_members_followStart {goal : Option String} :
    la ∈ members (g.followStart goal) name ↔
      la = .finish ∧ goal = some name ∧ name ∈ g.nonterminals := by
  cases goal with
  | none =>
      rw [followStart_none]
      simpa using not_mem_members_emptySets
  | some goal =>
      rw [followStart_some, mem_members_grow, mem_keys_emptySets, LookaheadSet.mem_singleton]
      constructor
      · rintro (hold | ⟨rfl, hname, rfl⟩)
        · exact absurd hold not_mem_members_emptySets
        · exact ⟨rfl, rfl, hname⟩
      · rintro ⟨rfl, hgoal, hname⟩
        cases hgoal
        exact Or.inr ⟨rfl, hname, rfl⟩

theorem followStart_within (g : Grammar) (first : SetTable) (goal : Option String) :
    Within g.nonterminals.toList.toFinset (followLookaheads first) (g.followStart goal) := by
  refine ⟨?_, ?_⟩
  · intro name hname
    exact List.mem_toFinset.2 (mem_keys_followStart.1 hname)
  · intro name la hla
    rw [(mem_members_followStart.1 hla).1]
    exact Finset.mem_insert_self _ _

theorem mem_of_mem_trailerBefore {set : LookaheadSet} (h : la ∈ g.trailerBefore first name set) :
    la ∈ set ∨ la ∈ members first name := by
  rw [mem_trailerBefore_iff] at h
  split_ifs at h
  · exact h.imp_right And.left
  · exact Or.inr h

theorem foldr_followSymbol_within {names : Finset String} (form : List String)
    {state : SetTable × LookaheadSet}
    (htable : Within names (followLookaheads first) state.1)
    (htrailer : ∀ la ∈ state.2, la ∈ followLookaheads first) :
    Within names (followLookaheads first) (form.foldr (g.followSymbol first) state).1 ∧
      ∀ la ∈ (form.foldr (g.followSymbol first) state).2, la ∈ followLookaheads first := by
  induction form with
  | nil => exact ⟨htable, htrailer⟩
  | cons name rest ih =>
      refine ⟨?_, ?_⟩
      · rw [List.foldr_cons]
        by_cases hname : name ∈ g.nonterminals
        · simpa [followSymbol, hname] using ih.1.grow ih.2
        · simpa [followSymbol, hname] using ih.1
      · intro la hla
        rcases mem_of_mem_trailerBefore hla with hold | hfirst
        · exact ih.2 la hold
        · exact mem_followLookaheads_of_mem_first hfirst

theorem followPass_within (g : Grammar) (first : SetTable) {names : Finset String}
    (table : SetTable) (hwithin : Within names (followLookaheads first) table) :
    Within names (followLookaheads first) (g.followPass first table) := by
  -- Two loops: over the productions, and over the alternatives of each of them.
  apply List.foldlRecOn g.productions.toList _ hwithin
  intro table htable production _
  apply List.foldlRecOn production.2 _ htable
  intro table htable alternative _
  exact (foldr_followSymbol_within alternative htable fun la hla => htable.member_mem hla).1

/-- The limit does not end the passes before one of them changes nothing. -/
theorem runsTo_followSets (g : Grammar) (first : SetTable) (goal : Option String) :
    RunsTo (g.followPass first) (g.followStart goal) (g.followSets first goal).1
      (g.followSets first goal).2 := by
  apply runsTo_converge (below_followPass g first) (followPass_within g first)
    (g.followLimit first) (followStart_within g first goal)
  have hlimit := card_followBound_lt g first
  omega

/-- One more pass changes nothing in the FOLLOW sets of any grammar, by any FIRST sets. -/
theorem followPass_followSets (g : Grammar) (first : SetTable) (goal : Option String) :
    g.followPass first (g.followSets first goal).1 = (g.followSets first goal).1 :=
  (runsTo_followSets g first goal).fixed

theorem followStart_below (g : Grammar) (first : SetTable) (goal : Option String) :
    Below (g.followStart goal) (g.followSets first goal).1 := by
  apply converge_keeps (P := Below (g.followStart goal)) ?_ (g.followLimit first) (Below.refl _)
  intro table htable
  exact htable.trans (below_followPass g first table)

theorem mem_keys_followSets {goal : Option String} :
    name ∈ (g.followSets first goal).1.keys ↔ name ∈ g.nonterminals := by
  rw [← (followStart_below g first goal).keys_eq]
  exact mem_keys_followStart

/-- The table of FOLLOW sets lists the nonterminals in their order. -/
theorem keys_followSets (g : Grammar) (first : SetTable) (goal : Option String) :
    (g.followSets first goal).1.keys = g.nonterminals.toList := by
  have hempty : g.emptySets.keys = g.nonterminals.toList := by
    rw [emptySets, ArrivalMap.keys_foldl_insert (fun _ : String => (∅ : LookaheadSet)),
      eraseDups_of_nodup g.nonterminals.nodup]
  rw [← (followStart_below g first goal).keys_eq]
  cases goal with
  | none => rw [followStart_none, hempty]
  | some goal => rw [followStart_some, keys_grow, hempty]

/-! ## Completeness -/

/-- The table accounts for all neighbours in a form over a base: a nonterminal's set has all of the
trailer that stands behind it when the form is read from right to left over the base. -/
def Accounts (g : Grammar) (first follow : SetTable) (base : LookaheadSet) (form : List String) :
    Prop :=
  ∀ before name after, form = before ++ name :: after → name ∈ g.nonterminals →
    ∀ la, la ∈ g.trailer first after base → la ∈ members follow name

/-- The table accounts for each alternative over the set of its left-hand side. -/
def FollowClosed (g : Grammar) (first follow : SetTable) : Prop :=
  ∀ lhs alternative, Offers g.productions lhs alternative →
    g.Accounts first follow (members follow lhs) alternative

theorem accounts_of_foldr_eq {base : LookaheadSet}
    (hkeys : ∀ name ∈ g.nonterminals, name ∈ follow.keys)
    (h : (form.foldr (g.followSymbol first) (follow, base)).1 = follow) :
    g.Accounts first follow base form := by
  induction form with
  | nil =>
      intro before name after hform
      simp at hform
  | cons n rest ih =>
      -- Nothing was changed in total, so neither the rest nor the symbol itself changed anything.
      have hrest : (rest.foldr (g.followSymbol first) (follow, base)).1 = follow := by
        have hlast : Below (rest.foldr (g.followSymbol first) (follow, base)).1 follow := by
          have hsymbol : Below (rest.foldr (g.followSymbol first) (follow, base)).1
              ((n :: rest).foldr (g.followSymbol first) (follow, base)).1 :=
            below_followSymbol _
          rwa [h] at hsymbol
        exact hlast.antisymm (below_foldr_followSymbol rest (follow, base))
      intro before name after hform hname la hla
      -- The name is the symbol at the head of the form, or one of the rest.
      cases before with
      | nil =>
          simp only [List.nil_append, List.cons.injEq] at hform
          rcases hform with ⟨rfl, rfl⟩
          have hgrow : grow follow n (g.trailer first rest base) = follow := by
            rw [List.foldr_cons] at h
            simpa [followSymbol, hname, hrest, snd_foldr_followSymbol] using h
          exact subset_of_grow_eq hgrow (hkeys n hname) hla
      | cons b before =>
          simp only [List.cons_append, List.cons.injEq] at hform
          exact ih hrest before name after hform.2 hname la hla

theorem followClosed_followSets (g : Grammar) (first : SetTable) (goal : Option String) :
    g.FollowClosed first (g.followSets first goal).1 := by
  intro lhs alternative hoffers
  rcases hoffers with ⟨alternatives, hfind, hmem⟩
  have hentry : (lhs, alternatives) ∈ g.productions.toList :=
    ArrivalMap.find?_eq_some_iff.1 hfind
  -- Nothing changes in the pass, so nothing at the production, so nothing at the alternative.
  have hproduction := step_eq_of_foldl_eq (below_followProduction g first)
    (followPass_followSets g first goal) (lhs, alternatives) hentry
  have halternative := step_eq_of_foldl_eq (below_followAlternative g first lhs) hproduction
    alternative hmem
  exact accounts_of_foldr_eq (fun name hname => mem_keys_followSets.2 hname) halternative

theorem Accounts.step (hg : g.Consistent) (hsolid : g.SolidTerminals first)
    (hfirst : g.FirstClosed first) (hfollow : g.FollowClosed first follow) {base : LookaheadSet}
    (h : g.Accounts first follow base form) (hstep : Step g.productions form form') :
    g.Accounts first follow base form' := by
  cases hstep with
  | @replace a b lhs alternative hoffers =>
      intro before name after hform hname la hla
      rw [List.append_assoc] at hform
      rcases split_of_append_eq hform with ⟨c, rfl, rfl⟩ | ⟨c, hrest⟩
      · -- Before the alternative: what comes behind begins with no more than before the step.
        apply h before name (c ++ lhs :: b) (by simp) hname la
        have hderives : Derives g.productions (c ++ lhs :: b) (c ++ (alternative ++ b)) := by
          simpa using Derives.single (Step.replace c b hoffers)
        have hsub := hfirst.firstOf_subset hderives
        rw [mem_trailer hsolid] at hla ⊢
        exact hla.imp (And.imp_left (hsub la)) (And.imp_left (hsub .epsilon))
      · rcases split_of_append_eq hrest with ⟨d, rfl, rfl⟩ | ⟨d, rfl⟩
        · -- In the alternative: the trailer behind it is accounted for at its left-hand side.
          apply hfollow lhs _ hoffers c name d rfl hname la
          have hbehind : ∀ la, la ∈ g.trailer first b base → la ∈ members follow lhs :=
            h a lhs b rfl (hg.lhs_mem hoffers)
          have hsplit : g.trailer first (d ++ b) base =
              g.trailer first d (g.trailer first b base) :=
            List.foldr_append
          rw [hsplit, mem_trailer hsolid] at hla
          rw [mem_trailer hsolid]
          exact hla.imp_right (And.imp_right (hbehind la))
        · -- Behind the alternative: nothing has changed there.
          exact h (a ++ lhs :: d) name after (by simp) hname la hla

theorem accounts_of_derives (hg : g.Consistent) (hsolid : g.SolidTerminals first)
    (hfirst : g.FirstClosed first) (hfollow : g.FollowClosed first follow)
    (h : Derives g.productions [name] form) :
    g.Accounts first follow (members follow name) form := by
  induction h with
  | refl =>
      intro before n after hform _ la hla
      cases before with
      | nil =>
          simp only [List.nil_append, List.cons.injEq] at hform
          rcases hform with ⟨rfl, rfl⟩
          exact hla
      | cons b before => simp at hform
  | tail _ hstep ih => exact ih.step hg hsolid hfirst hfollow hstep

theorem mem_followSets_of_follows (hg : g.Consistent)
    (hunmarked : ¬ g.IsSymbol Lookahead.endMarker) (hname : name ∈ g.nonterminals)
    (h : g.Follows name la) : la ∈ members (g.followSets g.firstSets.1 g.goal?).1 name := by
  have hsolid := solidTerminals_firstSets hg
  have haccounts : ∀ {lhs form}, Derives g.productions [lhs] form →
      g.Accounts g.firstSets.1 (g.followSets g.firstSets.1 g.goal?).1
        (members (g.followSets g.firstSets.1 g.goal?).1 lhs) form :=
    accounts_of_derives hg hsolid (firstClosed_firstSets hg)
      (followClosed_followSets g g.firstSets.1 g.goal?)
  cases la with
  | finish =>
      rcases h with ⟨goal, hgoal, before, hderives⟩
      -- The set of the goal has had the end from the start.
      have hstart : .finish ∈ members (g.followSets g.firstSets.1 g.goal?).1 goal := by
        apply (followStart_below g g.firstSets.1 g.goal?).subset
        exact mem_members_followStart.2 ⟨rfl, hgoal, hg.goal_mem hgoal⟩
      exact haccounts hderives before name [] rfl hname .finish hstart
  | epsilon => exact h.elim
  | terminal t =>
      rcases h with ⟨ht, lhs, _, before, after, hderives⟩
      -- The terminal begins what stands behind the name, whatever the base of the trailer is.
      apply haccounts hderives before name (t :: after) rfl hname
      have hhead := mem_firstSets_terminal hg hunmarked ht
      have hfirst : .terminal t ∈ firstOf g.firstSets.1 (t :: after) :=
        mem_firstOf_cons.2 (Or.inl ⟨hhead, by simp⟩)
      exact (mem_trailer hsolid).2 (Or.inl ⟨hfirst, by simp⟩)

/-! ## Soundness -/

/-- Every member of the set of a nonterminal is justified by a derivation. -/
def FollowSound (g : Grammar) (follow : SetTable) : Prop :=
  ∀ name ∈ g.nonterminals, ∀ la, la ∈ members follow name → g.Follows name la

/-- What follows a left-hand side follows the last symbol of an alternative that cannot vanish. -/
theorem Follows.of_lhs {lhs : String} {before : List String}
    (hoffers : Offers g.productions lhs (before ++ name :: rest))
    (hvanish : Derives g.productions rest []) (h : g.Follows lhs la) : g.Follows name la := by
  have hlast : Derives g.productions [lhs] (before ++ [name]) :=
    calc
      Derives g.productions [lhs] (before ++ name :: rest) := Derives.of_offers hoffers
      Derives g.productions _ (before ++ [name]) := by
        simpa using hvanish.append_left (before ++ [name])
  cases la with
  | finish =>
      rcases h with ⟨goal, hgoal, left, hderives⟩
      refine ⟨goal, hgoal, left ++ before, ?_⟩
      calc
        Derives g.productions [goal] (left ++ [lhs]) := hderives
        Derives g.productions _ (left ++ before ++ [name]) := by
          simpa using hlast.append_left left
  | epsilon => exact h
  | terminal t =>
      rcases h with ⟨ht, top, htop, left, right, hderives⟩
      refine ⟨ht, top, htop, left ++ before, right, ?_⟩
      calc
        Derives g.productions [top] (left ++ lhs :: t :: right) := hderives
        Derives g.productions _ (left ++ before ++ name :: t :: right) := by
          simpa using (hlast.append_right (t :: right)).append_left left

theorem FollowSound.follows_of_mem_trailer (hg : g.Consistent) (hsolid : g.SolidTerminals first)
    (hfirst : g.FirstSound first) (hsound : g.FollowSound follow) {lhs : String}
    {before : List String} (hoffers : Offers g.productions lhs (before ++ name :: rest))
    (hla : la ∈ g.trailer first rest (members follow lhs)) : g.Follows name la := by
  have hrest : ∀ n ∈ rest, g.IsSymbol n := by
    intro n hn
    exact hg.closed hoffers n (List.mem_append_right before (List.mem_cons_of_mem name hn))
  rcases (mem_trailer hsolid).1 hla with ⟨hbegins, hne⟩ | ⟨hepsilon, hbase⟩
  · -- A terminal that what stands behind the name begins with.
    have hjustified := hfirst.begins hrest hbegins
    cases la with
    | finish => exact hjustified.elim
    | epsilon => exact absurd rfl hne
    | terminal t =>
        rcases hjustified with ⟨ht, after, hafter⟩
        refine ⟨ht, lhs, hg.lhs_mem hoffers, before, after, ?_⟩
        calc
          Derives g.productions [lhs] (before ++ name :: rest) := Derives.of_offers hoffers
          Derives g.productions _ (before ++ name :: t :: after) := by
            simpa using hafter.append_left (before ++ [name])
  · -- What stands behind the name vanishes, so the name comes last in the alternative.
    have hvanish : Derives g.productions rest [] := hfirst.begins hrest hepsilon
    exact (hsound lhs (hg.lhs_mem hoffers) la hbase).of_lhs hoffers hvanish

theorem followSound_foldr (hg : g.Consistent) (hsolid : g.SolidTerminals first)
    (hfirst : g.FirstSound first) (hsound : g.FollowSound follow) {lhs : String} :
    ∀ (rest before : List String), Offers g.productions lhs (before ++ rest) →
      g.FollowSound (rest.foldr (g.followSymbol first) (follow, members follow lhs)).1 := by
  -- By induction on what has been read, from the right, of an alternative that is known as a whole.
  intro rest
  induction rest with
  | nil =>
      intro _ _
      exact hsound
  | cons n rest ih =>
      intro before hoffers
      have htable := ih (before ++ [n]) (by simpa using hoffers)
      have htrailer := snd_foldr_followSymbol g first follow rest (members follow lhs)
      rw [List.foldr_cons]
      by_cases hn : n ∈ g.nonterminals
      · intro name hname la hla
        simp only [followSymbol, hn, if_true, htrailer] at hla
        rcases mem_members_grow.1 hla with hold | ⟨rfl, _, hnew⟩
        · exact htable name hname la hold
        · exact hsound.follows_of_mem_trailer hg hsolid hfirst hoffers hnew
      · simpa [followSymbol, hn] using htable

theorem followSound_followPass (hg : g.Consistent) (hsolid : g.SolidTerminals first)
    (hfirst : g.FirstSound first) (table : SetTable) (hsound : g.FollowSound table) :
    g.FollowSound (g.followPass first table) := by
  apply List.foldlRecOn (motive := g.FollowSound) g.productions.toList _ hsound
  intro table htable production hproduction
  apply List.foldlRecOn (motive := g.FollowSound) production.2 _ htable
  intro table htable alternative halternative
  have hoffers : Offers g.productions production.1 ([] ++ alternative) :=
    ⟨production.2, ArrivalMap.find?_eq_some_iff.2 hproduction, halternative⟩
  exact followSound_foldr hg hsolid hfirst htable alternative [] hoffers

theorem followSound_followStart (g : Grammar) : g.FollowSound (g.followStart g.goal?) := by
  intro name _ la hla
  rcases mem_members_followStart.1 hla with ⟨rfl, hgoal, _⟩
  exact ⟨name, hgoal, [], Derives.refl g.productions [name]⟩

/-! ## FOLLOW sets are what derivations say -/

theorem mem_followSets_iff (hg : g.Consistent) (hunmarked : ¬ g.IsSymbol Lookahead.endMarker)
    (hname : name ∈ g.nonterminals) :
    la ∈ members (g.followSets g.firstSets.1 g.goal?).1 name ↔ g.Follows name la := by
  constructor
  · have hpass := followSound_followPass hg (solidTerminals_firstSets hg)
      (firstSound_firstSets hg hunmarked)
    exact converge_keeps (P := g.FollowSound) hpass (g.followLimit g.firstSets.1)
      (followSound_followStart g) name hname la
  · exact mem_followSets_of_follows hg hunmarked hname

/-- A form in which a name stands that no alternative has is the name itself. -/
theorem eq_of_derives_of_unreferenced {lhs : String}
    (hname : ∀ lhs alternative, Offers g.productions lhs alternative → name ∉ alternative)
    (h : Derives g.productions [lhs] form) (hmem : name ∈ form) : form = [name] ∧ lhs = name := by
  induction h with
  | refl =>
      obtain rfl := List.mem_singleton.1 hmem
      exact ⟨rfl, rfl⟩
  | tail _ hstep ih =>
      cases hstep with
      | @replace before after replaced alternative hoffers =>
          have hnot := hname _ _ hoffers
          have hold : name ∈ before ++ replaced :: after := by
            simp only [List.mem_append, List.mem_cons] at hmem ⊢
            tauto
          rcases ih hold with ⟨hform, _⟩
          -- The form before the step was the name alone, and the step has replaced it.
          have hempty : before = [] ∧ after = [] := by
            have hlength := congrArg List.length hform
            simp only [List.length_append, List.length_cons, List.length_nil] at hlength
            constructor
            · exact List.length_eq_zero_iff.1 (by omega)
            · exact List.length_eq_zero_iff.1 (by omega)
          rcases hempty with ⟨rfl, rfl⟩
          simp at hmem
          exact absurd hmem hnot

/-- A name that no alternative has is followed by nothing, except by the end if it is the goal. -/
theorem follows_iff_of_unreferenced
    (hname : ∀ lhs alternative, Offers g.productions lhs alternative → name ∉ alternative) :
    g.Follows name la ↔ la = .finish ∧ g.goal? = some name := by
  cases la with
  | finish =>
      constructor
      · rintro ⟨goal, hgoal, before, hderives⟩
        rcases eq_of_derives_of_unreferenced hname hderives (by simp) with ⟨_, rfl⟩
        exact ⟨rfl, hgoal⟩
      · rintro ⟨_, hgoal⟩
        exact ⟨name, hgoal, [], Derives.refl g.productions [name]⟩
  | epsilon => simp [Follows]
  | terminal t =>
      constructor
      · rintro ⟨_, lhs, _, before, after, hderives⟩
        rcases eq_of_derives_of_unreferenced hname hderives (by simp) with ⟨hform, _⟩
        have hlength := congrArg List.length hform
        simp only [List.length_append, List.length_cons, List.length_nil] at hlength
        omega
      · simp

end Grammar
end BnfGrammar
