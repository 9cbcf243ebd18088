import BnfGrammar.Lookahead.First
import BnfGrammar.Proofs.Grammar.Consistent
import BnfGrammar.Proofs.Lookahead.Converge

/-!
# FIRST sets by derivations

What a form begins with is defined by its derivations: `Grammar.Begins` holds of the terminals that
may come first in a form derived from it, and of the empty lookahead if the empty form is derived
from it.

The FIRST sets of a consistent grammar hold exactly what is defined in this way.

* Soundness is an invariant of the passes: every member of a set is justified by a derivation.
* Completeness needs only that the table is left unchanged by one more pass. Then what a form
  begins with by the table cannot grow along a step of a derivation, whatever place the step is at,
  and so it already holds the terminal that the last form begins with.
-/

namespace BnfGrammar

variable {g : Grammar} {first : SetTable} {form form' rest : List String} {name : String}
  {la : Lookahead}

/-! ## Members of FIRST sets of sequences -/

namespace LookaheadSet

theorem mem_singleton {a b : Lookahead} : a ∈ ({b} : LookaheadSet) ↔ a = b := by
  rw [Std.ExtTreeSet.singleton_eq_insert, Std.ExtTreeSet.mem_insert, Std.compare_eq_iff_eq]
  simp [eq_comm]

theorem mem_erase_iff {s : LookaheadSet} {a b : Lookahead} : a ∈ s.erase b ↔ a ∈ s ∧ a ≠ b := by
  rw [Std.ExtTreeSet.mem_erase, Ne, Std.compare_eq_iff_eq, and_comm, eq_comm]

end LookaheadSet

namespace SetTable

theorem mem_firstOf_nil : la ∈ firstOf first [] ↔ la = .epsilon :=
  LookaheadSet.mem_singleton

theorem mem_firstOf_cons :
    la ∈ firstOf first (name :: rest) ↔
      (la ∈ members first name ∧ la ≠ .epsilon) ∨
        (.epsilon ∈ members first name ∧ la ∈ firstOf first rest) := by
  cases hfind : first.find? name with
  | none => simp [firstOf, members, hfind]
  | some set =>
      by_cases hepsilon : .epsilon ∈ set
      · have hunion : la ∈ set.erase .epsilon ∪ firstOf first rest ↔
            (la ∈ set ∧ la ≠ .epsilon) ∨ la ∈ firstOf first rest := by
          rw [Std.ExtTreeSet.mem_union_iff, LookaheadSet.mem_erase_iff]
        simpa [firstOf, members, hfind, hepsilon] using hunion
      · have hne : la ∈ set → la ≠ .epsilon := fun hla he => hepsilon (he ▸ hla)
        simpa [firstOf, members, hfind, hepsilon] using hne

theorem mem_firstOf_singleton : la ∈ firstOf first [name] ↔ la ∈ members first name := by
  rw [mem_firstOf_cons, mem_firstOf_nil]
  -- The empty lookahead is taken out of the set of the name and put back behind it.
  constructor
  · rintro (⟨hla, _⟩ | ⟨hepsilon, rfl⟩)
    · exact hla
    · exact hepsilon
  · intro hla
    by_cases he : la = .epsilon
    · exact Or.inr ⟨he ▸ hla, he⟩
    · exact Or.inl ⟨hla, he⟩

theorem mem_firstOf_append {a b : List String} :
    la ∈ firstOf first (a ++ b) ↔
      (la ∈ firstOf first a ∧ la ≠ .epsilon) ∨
        (.epsilon ∈ firstOf first a ∧ la ∈ firstOf first b) := by
  induction a with
  | nil =>
      simp only [List.nil_append, mem_firstOf_nil, true_and]
      constructor
      · exact Or.inr
      · rintro (⟨he, hne⟩ | hla)
        · exact absurd he hne
        · exact hla
  | cons name a ih =>
      simp only [List.cons_append, mem_firstOf_cons, ih]
      tauto

theorem mem_firstOfAny {alternatives : List Alternative} :
    la ∈ firstOfAny first alternatives ↔
      ∃ alternative ∈ alternatives, la ∈ firstOf first alternative := by
  -- By induction on the alternatives, for a union that has started with any set.
  have hfold : ∀ (l : List Alternative) (start : LookaheadSet),
      la ∈ l.foldl (fun set alternative => set ∪ firstOf first alternative) start ↔
        la ∈ start ∨ ∃ alternative ∈ l, la ∈ firstOf first alternative := by
    intro l
    induction l with
    | nil =>
        intro start
        simp
    | cons alternative l ih =>
        intro start
        simp [ih, Std.ExtTreeSet.mem_union_iff, or_assoc]
  simpa [firstOfAny] using hfold alternatives ∅

end SetTable

/-! ## What forms begin with -/

namespace Grammar

open Productions SetTable

/-- What forms derived from a form begin with: terminals, or nothing if the form may vanish. The end
of the input is never among it. -/
def Begins (g : Grammar) (form : List String) : Lookahead → Prop
  | .finish => False
  | .epsilon => Derives g.productions form []
  | .terminal t => t ∈ g.terminals ∧ ∃ rest, Derives g.productions form (t :: rest)

namespace Begins

theorem of_derives (hform : Derives g.productions form form') (h : g.Begins form' la) :
    g.Begins form la := by
  cases la with
  | finish => exact h
  | epsilon => exact hform.trans h
  | terminal t =>
      rcases h with ⟨ht, rest, hrest⟩
      exact ⟨ht, rest, hform.trans hrest⟩

theorem cons_of_head (hne : la ≠ .epsilon) (h : g.Begins [name] la) :
    g.Begins (name :: rest) la := by
  cases la with
  | finish => exact h
  | epsilon => exact absurd rfl hne
  | terminal t =>
      rcases h with ⟨ht, more, hmore⟩
      exact ⟨ht, more ++ rest, hmore.append_right rest⟩

theorem cons_of_tail (hhead : g.Begins [name] .epsilon) (h : g.Begins rest la) :
    g.Begins (name :: rest) la := by
  have hvanish : Derives g.productions ([name] ++ rest) ([] ++ rest) := hhead.append_right rest
  exact of_derives hvanish h

end Begins

/-! ## The first table -/

theorem find?_firstStart (g : Grammar) (name : String) :
    g.firstStart.find? name =
      if name ∈ g.nonterminals then some ∅
      else if Lookahead.endMarker = name then some {.finish}
      else if name ∈ g.terminals then some {.terminal name}
      else none := by
  simp only [firstStart, ArrivalMap.find?_foldl_insert (fun _ : String => (∅ : LookaheadSet)),
    ArrivalMap.find?_insert, ArrivalMap.find?_empty,
    ArrivalMap.find?_foldl_insert (fun name : String => ({.terminal name} : LookaheadSet))]
  rfl

theorem mem_keys_firstStart :
    name ∈ g.firstStart.keys ↔
      name ∈ g.nonterminals ∨ Lookahead.endMarker = name ∨ name ∈ g.terminals := by
  rw [ArrivalMap.mem_keys_iff, find?_firstStart]
  by_cases hnonterminal : name ∈ g.nonterminals
  · simp [hnonterminal]
  · by_cases hmarker : Lookahead.endMarker = name
    · simp [hnonterminal, hmarker]
    · by_cases hterminal : name ∈ g.terminals
      · simp [hnonterminal, hmarker, hterminal]
      · simp [hnonterminal, hmarker, hterminal]

/-- The names that have FIRST sets. -/
def firstNames (g : Grammar) : Finset String :=
  (g.terminals.toList ++ Lookahead.endMarker :: g.nonterminals.toList).toFinset

/-- The lookaheads that FIRST sets can hold. -/
def firstLookaheads (g : Grammar) : Finset Lookahead :=
  (.finish :: .epsilon :: g.terminals.toList.map .terminal).toFinset

theorem card_firstBound_lt (g : Grammar) :
    g.firstNames.card * g.firstLookaheads.card < g.firstLimit := by
  -- The limit is one more than the product of bounds on both factors.
  have hnames : g.firstNames.card ≤ g.terminals.size + 1 + g.nonterminals.size := by
    have hcard := List.toFinset_card_le
      (g.terminals.toList ++ Lookahead.endMarker :: g.nonterminals.toList)
    simp only [List.length_append, List.length_cons] at hcard
    simp only [firstNames, ArrivalSet.size]
    omega
  have hlookaheads : g.firstLookaheads.card ≤ g.terminals.size + 2 := by
    have hcard := List.toFinset_card_le
      (Lookahead.finish :: .epsilon :: g.terminals.toList.map .terminal)
    simpa [firstLookaheads, ArrivalSet.size] using hcard
  have hproduct := Nat.mul_le_mul hnames hlookaheads
  exact Nat.lt_succ_of_le hproduct

theorem firstStart_within (g : Grammar) :
    Within g.firstNames g.firstLookaheads g.firstStart := by
  refine ⟨?_, ?_⟩
  · intro name hname
    rcases mem_keys_firstStart.1 hname with h | rfl | h
    · simp [firstNames, ArrivalSet.mem_def.1 h]
    · simp [firstNames]
    · simp [firstNames, ArrivalSet.mem_def.1 h]
  · intro name la hla
    rw [members, find?_firstStart] at hla
    -- One case for each kind of name: nonterminal, mark, terminal, no symbol.
    split_ifs at hla with _ _ hterminal
    · simp at hla
    · have hfinish := LookaheadSet.mem_singleton.1 hla
      simp [firstLookaheads, hfinish]
    · have heq := LookaheadSet.mem_singleton.1 hla
      simp [firstLookaheads, heq, ArrivalSet.mem_def.1 hterminal]
    · simp at hla

/-! ## Passes -/

theorem below_firstPass (g : Grammar) (table : SetTable) : Below table (g.firstPass table) :=
  below_foldl (fun _ _ => below_grow _ _ _) g.productions.toList table

theorem mem_firstLookaheads_of_mem_firstOf (hwithin : Within g.firstNames g.firstLookaheads first) :
    ∀ {form : List String}, la ∈ firstOf first form → la ∈ g.firstLookaheads := by
  intro form
  induction form with
  | nil =>
      intro hla
      simp [firstLookaheads, mem_firstOf_nil.1 hla]
  | cons name rest ih =>
      intro hla
      rcases mem_firstOf_cons.1 hla with ⟨hmem, _⟩ | ⟨_, hrest⟩
      · exact hwithin.member_mem hmem
      · exact ih hrest

theorem firstPass_within (g : Grammar) (table : SetTable)
    (hwithin : Within g.firstNames g.firstLookaheads table) :
    Within g.firstNames g.firstLookaheads (g.firstPass table) := by
  apply List.foldlRecOn g.productions.toList _ hwithin
  intro table htable entry _
  apply htable.grow
  intro la hla
  rcases mem_firstOfAny.1 hla with ⟨alternative, _, hmem⟩
  exact mem_firstLookaheads_of_mem_firstOf htable hmem

/-- The limit does not end the passes before one of them changes nothing. -/
theorem runsTo_firstSets (g : Grammar) :
    RunsTo g.firstPass g.firstStart g.firstSets.1 g.firstSets.2 := by
  apply runsTo_converge (below_firstPass g) (firstPass_within g) g.firstLimit (firstStart_within g)
  have hlimit := card_firstBound_lt g
  omega

/-- One more pass changes nothing in the FIRST sets of any grammar. -/
theorem firstPass_firstSets (g : Grammar) : g.firstPass g.firstSets.1 = g.firstSets.1 :=
  (runsTo_firstSets g).fixed

theorem keys_firstSets (g : Grammar) : g.firstSets.1.keys = g.firstStart.keys := by
  have hkeep : ∀ table : SetTable, table.keys = g.firstStart.keys →
      (g.firstPass table).keys = g.firstStart.keys := by
    intro table htable
    exact (below_firstPass g table).keys_eq.symm.trans htable
  exact converge_keeps hkeep g.firstLimit rfl

/-- The FIRST sets include what the sets of the first table hold. -/
theorem mem_firstSets_of_mem_firstStart (hla : la ∈ members g.firstStart name) :
    la ∈ members g.firstSets.1 name := by
  have hbelow : Below g.firstStart g.firstSets.1 := by
    apply converge_keeps (P := Below g.firstStart) ?_ g.firstLimit (Below.refl _)
    intro table htable
    exact htable.trans (below_firstPass g table)
  exact hbelow.subset hla

/-! ## Completeness -/

/-- A left-hand side begins with all that its alternatives begin with by the table. -/
def FirstClosed (g : Grammar) (first : SetTable) : Prop :=
  ∀ lhs alternative, Offers g.productions lhs alternative →
    ∀ la, la ∈ firstOf first alternative → la ∈ members first lhs

theorem firstClosed_firstSets (hg : g.Consistent) : g.FirstClosed g.firstSets.1 := by
  intro lhs alternative hoffers la hla
  rcases hoffers with ⟨alternatives, hfind, hmem⟩
  have hentry : (lhs, alternatives) ∈ g.productions.toList :=
    ArrivalMap.find?_eq_some_iff.1 hfind
  -- The last pass has changed nothing, so the step for this left-hand side has not either.
  have hstep := step_eq_of_foldl_eq (fun _ _ => below_grow _ _ _) (firstPass_firstSets g)
    (lhs, alternatives) hentry
  have hkey : lhs ∈ g.firstSets.1.keys := by
    have hproduction : lhs ∈ g.productions.keys :=
      ArrivalMap.mem_keys_iff.2 ⟨alternatives, hfind⟩
    rw [keys_firstSets]
    exact mem_keys_firstStart.2 (Or.inl (hg.mem_keys_iff.1 hproduction))
  exact subset_of_grow_eq hstep hkey (mem_firstOfAny.2 ⟨alternative, hmem, hla⟩)

/-- What a form begins with by a closed table cannot grow along a derivation. -/
theorem FirstClosed.firstOf_subset (hclosed : g.FirstClosed first)
    (h : Derives g.productions form form') :
    ∀ la, la ∈ firstOf first form' → la ∈ firstOf first form := by
  -- By induction on the derivation, whose last step may be at any place of the form.
  induction h with
  | refl => exact fun _ => id
  | tail _ hstep ih =>
      intro la hla
      apply ih
      cases hstep with
      | replace before after hoffers =>
          have hsub := hclosed _ _ hoffers
          -- The forms differ in the middle only, where the alternative stands for its left-hand side.
          rw [List.append_assoc, mem_firstOf_append, mem_firstOf_append] at hla
          rw [mem_firstOf_append, mem_firstOf_cons]
          rcases hla with hbefore | ⟨hvanish, ⟨hmem, hne⟩ | ⟨hepsilon, hafter⟩⟩
          · exact Or.inl hbefore
          · exact Or.inr ⟨hvanish, Or.inl ⟨hsub _ hmem, hne⟩⟩
          · exact Or.inr ⟨hvanish, Or.inr ⟨hsub _ hepsilon, hafter⟩⟩

/-- The set of a terminal holds the terminal. -/
theorem mem_firstSets_terminal (hg : g.Consistent) (hunmarked : ¬ g.IsSymbol Lookahead.endMarker)
    {t : String} (ht : t ∈ g.terminals) : .terminal t ∈ members g.firstSets.1 t := by
  apply mem_firstSets_of_mem_firstStart
  have hmarker : Lookahead.endMarker ≠ t := fun he => hunmarked (he ▸ Or.inr ht)
  simp only [members, find?_firstStart, hg.disjoint ht, hmarker, ht, if_true, if_false,
    Option.getD_some]
  exact LookaheadSet.mem_singleton.2 rfl

theorem mem_firstOf_of_begins (hg : g.Consistent) (hunmarked : ¬ g.IsSymbol Lookahead.endMarker)
    (h : g.Begins form la) : la ∈ firstOf g.firstSets.1 form := by
  have hclosed := firstClosed_firstSets hg
  cases la with
  | finish => exact h.elim
  | epsilon => exact hclosed.firstOf_subset h _ (mem_firstOf_nil.2 rfl)
  | terminal t =>
      rcases h with ⟨ht, rest, hrest⟩
      have hhead := mem_firstSets_terminal hg hunmarked ht
      exact hclosed.firstOf_subset hrest _ (mem_firstOf_cons.2 (Or.inl ⟨hhead, by simp⟩))

/-! ## Soundness -/

/-- Every member of the set of a symbol is justified by a derivation. -/
def FirstSound (g : Grammar) (first : SetTable) : Prop :=
  ∀ name, g.IsSymbol name → ∀ la, la ∈ members first name → g.Begins [name] la

theorem FirstSound.begins (hsound : g.FirstSound first) :
    ∀ {form : List String}, (∀ name ∈ form, g.IsSymbol name) →
      ∀ {la}, la ∈ firstOf first form → g.Begins form la := by
  intro form
  induction form with
  | nil =>
      intro _ la hla
      rw [mem_firstOf_nil.1 hla]
      exact Derives.refl g.productions []
  | cons name rest ih =>
      intro hsymbols la hla
      have hname := hsymbols name List.mem_cons_self
      have hrest : ∀ n ∈ rest, g.IsSymbol n := fun n hn => hsymbols n (List.mem_cons_of_mem name hn)
      rcases mem_firstOf_cons.1 hla with ⟨hmem, hne⟩ | ⟨hvanish, hmem⟩
      · exact (hsound name hname la hmem).cons_of_head hne
      · exact Begins.cons_of_tail (hsound name hname _ hvanish) (ih hrest hmem)

theorem firstSound_firstStart (hunmarked : ¬ g.IsSymbol Lookahead.endMarker) :
    g.FirstSound g.firstStart := by
  intro name hname la hla
  rw [members, find?_firstStart] at hla
  split_ifs at hla with _ hmarker hterminal
  · simp at hla
  · -- The mark would stand for the end of the input, but it is no symbol.
    exact absurd (hmarker ▸ hname) hunmarked
  · rw [LookaheadSet.mem_singleton.1 hla]
    exact ⟨hterminal, [], Derives.refl g.productions [name]⟩
  · simp at hla

theorem firstSound_firstPass (hg : g.Consistent) (table : SetTable) (hsound : g.FirstSound table) :
    g.FirstSound (g.firstPass table) := by
  apply List.foldlRecOn (motive := g.FirstSound) g.productions.toList _ hsound
  intro table htable entry hentry name hname la hla
  rcases mem_members_grow.1 hla with hold | ⟨rfl, _, hnew⟩
  · exact htable name hname la hold
  · -- The justification of the alternative becomes one of its left-hand side.
    rcases mem_firstOfAny.1 hnew with ⟨alternative, hmem, hbegins⟩
    have hoffers : Offers g.productions entry.1 alternative :=
      ⟨entry.2, ArrivalMap.find?_eq_some_iff.2 hentry, hmem⟩
    exact (htable.begins (hg.closed hoffers) hbegins).of_derives (Derives.of_offers hoffers)

theorem firstSound_firstSets (hg : g.Consistent) (hunmarked : ¬ g.IsSymbol Lookahead.endMarker) :
    g.FirstSound g.firstSets.1 :=
  converge_keeps (P := g.FirstSound) (firstSound_firstPass hg) g.firstLimit
    (firstSound_firstStart hunmarked)

/-- No name is marked as vanishing that is no nonterminal. -/
def SolidTerminals (g : Grammar) (first : SetTable) : Prop :=
  ∀ name, .epsilon ∈ members first name → name ∈ g.nonterminals

theorem solidTerminals_firstStart (g : Grammar) : g.SolidTerminals g.firstStart := by
  intro name hname
  rw [members, find?_firstStart] at hname
  split_ifs at hname with hnonterminal
  · exact hnonterminal
  · simp at hname
  · simp at hname
  · simp at hname

theorem solidTerminals_firstSets (hg : g.Consistent) : g.SolidTerminals g.firstSets.1 := by
  apply converge_keeps (P := g.SolidTerminals) ?_ g.firstLimit (solidTerminals_firstStart g)
  intro table hsolid
  apply List.foldlRecOn (motive := g.SolidTerminals) g.productions.toList _ hsolid
  intro table htable entry hentry name hname
  rcases mem_members_grow.1 hname with hold | ⟨rfl, _, _⟩
  · exact htable name hold
  · exact hg.mem_keys_iff.1 (List.mem_map.2 ⟨entry, hentry, rfl⟩)

/-! ## FIRST sets are what derivations say -/

theorem mem_firstOf_firstSets_iff (hg : g.Consistent)
    (hunmarked : ¬ g.IsSymbol Lookahead.endMarker) (hform : ∀ name ∈ form, g.IsSymbol name) :
    la ∈ firstOf g.firstSets.1 form ↔ g.Begins form la :=
  ⟨(firstSound_firstSets hg hunmarked).begins hform, mem_firstOf_of_begins hg hunmarked⟩

theorem mem_members_firstSets_iff (hg : g.Consistent)
    (hunmarked : ¬ g.IsSymbol Lookahead.endMarker) (hname : g.IsSymbol name) :
    la ∈ members g.firstSets.1 name ↔ g.Begins [name] la := by
  rw [← mem_firstOf_singleton]
  apply mem_firstOf_firstSets_iff hg hunmarked
  simpa using hname

end Grammar
end BnfGrammar
