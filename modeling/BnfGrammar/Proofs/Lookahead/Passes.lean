import BnfGrammar.Analysis
import BnfGrammar.Proofs.Grammar.OfTree
import BnfGrammar.Proofs.Lookahead.Occurring
import Mathlib.Order.Monotone.Basic

/-!
# The number of passes

FIRST sets take at most two passes for each production and one more, FOLLOW sets at most one for
each nonterminal and one more. Nothing is assumed about the grammar, and for FOLLOW sets nothing
about the FIRST sets and the goal either. The number of terminals does not matter, because the
lookaheads are added independently of one another:

* which FOLLOW sets take in a lookahead in a pass depends only on those that have it;
* which FIRST sets take in a lookahead depends only on those that have it and on those that have the
  empty lookahead.

So once a pass has added a lookahead to no set, and the empty lookahead neither, no later pass adds
it. Until then every pass adds it to one more set of some names. For FIRST sets the passes that add
the empty lookahead come first, and this is why there may be two for each production.
-/

namespace BnfGrammar
namespace SetTable

variable {a b table : SetTable} {name : String} {la : Lookahead} {las : Set Lookahead}

/-! ## Tables that agree on some lookaheads -/

/-- Two tables have sets for the same names, and these have the same members among some
lookaheads. -/
structure AgreeOn (las : Set Lookahead) (a b : SetTable) : Prop where
  keys_eq : a.keys = b.keys
  mem_iff : ∀ {la}, la ∈ las → ∀ name, la ∈ members a name ↔ la ∈ members b name

namespace AgreeOn

theorem grow (h : AgreeOn las a b) {set set' : LookaheadSet}
    (hset : ∀ la ∈ las, la ∈ set ↔ la ∈ set') :
    AgreeOn las (grow a name set) (grow b name set') := by
  refine ⟨?_, ?_⟩
  · rw [keys_grow, keys_grow, h.keys_eq]
  · intro la hla name'
    rw [mem_members_grow, mem_members_grow, h.mem_iff hla, h.keys_eq, hset la hla]

theorem foldl {α : Type} {step : SetTable → α → SetTable}
    (hstep : ∀ x {a b}, AgreeOn las a b → AgreeOn las (step a x) (step b x)) (l : List α) :
    ∀ {a b}, AgreeOn las a b → AgreeOn las (l.foldl step a) (l.foldl step b) := by
  induction l with
  | nil => exact id
  | cons x rest ih => exact fun h => ih (hstep x h)

end AgreeOn

/-! ## Names that have a lookahead -/

section Holders

variable {names : Finset String}

/-- Those of some names whose sets have a lookahead. -/
def holders (names : Finset String) (la : Lookahead) (table : SetTable) : Finset String :=
  names.filter fun name => la ∈ members table name

theorem holders_subset (h : Below a b) : holders names la a ⊆ holders names la b := by
  intro name hname
  rcases Finset.mem_filter.1 hname with ⟨hmem, hla⟩
  exact Finset.mem_filter.2 ⟨hmem, h.subset hla⟩

theorem AgreeOn.holders_eq (h : AgreeOn las a b) (hla : la ∈ las) :
    holders names la a = holders names la b :=
  Finset.filter_congr fun name _ => h.mem_iff hla name

/-- A table that has grown without adding a lookahead to any set still agrees on it. -/
theorem AgreeOn.insert (h : AgreeOn las a b) (hbelow : Below a b)
    (hnames : ∀ name ∉ names, la ∈ members b name → la ∈ members a name)
    (hcard : (holders names la a).card = (holders names la b).card) :
    AgreeOn (insert la las) a b := by
  have hsame : holders names la a = holders names la b :=
    Finset.eq_of_subset_of_card_le (holders_subset hbelow) hcard.ge
  refine ⟨h.keys_eq, ?_⟩
  rintro la' (rfl | hla') name
  · refine ⟨hbelow.subset, ?_⟩
    intro hlater
    by_cases hname : name ∈ names
    · have hholds : name ∈ holders names la' a := hsame ▸ Finset.mem_filter.2 ⟨hname, hlater⟩
      exact (Finset.mem_filter.1 hholds).2
    · exact hnames name hname hlater
  · exact h.mem_iff hla' name

end Holders

/-! ## Passes that settle one lookahead after another -/

section Iterations

variable {pass : SetTable → SetTable} {names : Finset String}

/-- A pass does not change what the sets have of some lookaheads, and neither do the passes behind
it. -/
def Settled (pass : SetTable → SetTable) (las : Set Lookahead) (table : SetTable) : Prop :=
  ∀ k, AgreeOn las (pass^[k] table) (pass^[k + 1] table)

theorem below_iterate_succ (hgrows : ∀ table, Below table (pass table)) (table : SetTable)
    (k : Nat) : Below (pass^[k] table) (pass^[k + 1] table) := by
  rw [Function.iterate_succ_apply']
  exact hgrows _

theorem keys_iterate (hgrows : ∀ table, Below table (pass table)) (table : SetTable) (k : Nat) :
    (pass^[k] table).keys = table.keys := by
  induction k with
  | zero => rfl
  | succ k ih => exact (below_iterate_succ hgrows table k).keys_eq.symm.trans ih

theorem settled_empty (hgrows : ∀ table, Below table (pass table)) (table : SetTable) :
    Settled pass ∅ table :=
  fun k => ⟨(below_iterate_succ hgrows table k).keys_eq, fun h => h.elim⟩

/-- The number of names that have a lookahead behind some passes. -/
def held (pass : SetTable → SetTable) (names : Finset String) (la : Lookahead) (table : SetTable)
    (k : Nat) : Nat :=
  (holders names la (pass^[k] table)).card

theorem held_monotone (hgrows : ∀ table, Below table (pass table)) :
    Monotone (held pass names la table) :=
  monotone_nat_of_le_succ fun k =>
    Finset.card_le_card (holders_subset (below_iterate_succ hgrows table k))

/-- A pass that adds a lookahead to no set is followed by another such pass, if what it adds of the
lookahead depends only on what there was of it and of settled ones. -/
theorem held_stays
    (hlocal : ∀ a b, AgreeOn (insert la las) a b → AgreeOn (insert la las) (pass a) (pass b))
    {k : Nat} (h : AgreeOn (insert la las) (pass^[k] table) (pass^[k + 1] table)) :
    held pass names la table (k + 1) = held pass names la table (k + 2) := by
  have hnext := hlocal _ _ h
  rw [← Function.iterate_succ_apply' pass k, ← Function.iterate_succ_apply' pass (k + 1)] at hnext
  rw [held, held, hnext.holders_eq (Set.mem_insert la las)]

/-- Once some lookaheads are settled, another one that depends on no others is settled by as many
passes as there are names that may take it in. -/
theorem Settled.insert (hsettled : Settled pass las table)
    (hgrows : ∀ table, Below table (pass table))
    (hlocal : ∀ a b, AgreeOn (insert la las) a b → AgreeOn (insert la las) (pass a) (pass b))
    (hnames : ∀ k, ∀ name ∉ names, la ∈ members (pass^[k + 1] table) name →
      la ∈ members (pass^[k] table) name) {n : Nat} (hn : names.card ≤ n) :
    Settled pass (insert la las) (pass^[n] table) := by
  have hagree : ∀ k, held pass names la table k = held pass names la table (k + 1) →
      AgreeOn (Insert.insert la las) (pass^[k] table) (pass^[k + 1] table) :=
    fun k => (hsettled k).insert (below_iterate_succ hgrows table k) (hnames k)
  -- The number of names that have the lookahead grows until it stays, and is never above `n`.
  have hlast : ∀ k, n ≤ k → held pass names la table k = held pass names la table n :=
    fun k => Nat.stabilises_of_monotone (held_monotone hgrows)
      (fun _ => (Finset.card_filter_le _ _).trans hn) fun k hk => held_stays hlocal (hagree k hk)
  intro k
  have hk : n ≤ k + n := Nat.le_add_left n k
  have hsame := (hlast (k + n) hk).trans (hlast (k + n + 1) (Nat.le_succ_of_le hk)).symm
  have hresult := hagree (k + n) hsame
  rwa [Function.iterate_add_apply, Nat.add_right_comm, Function.iterate_add_apply] at hresult

/-- A table on which all lookaheads are settled is left unchanged. -/
theorem pass_eq_of_settled (hgrows : ∀ table, Below table (pass table))
    (h : ∀ la, ∃ las, la ∈ las ∧ Settled pass las table) : pass table = table := by
  refine (hgrows table).antisymm ⟨(hgrows table).keys_eq.symm, ?_⟩ |>.symm
  intro name la hla
  rcases h la with ⟨las, hmem, hsettled⟩
  exact ((hsettled 0).mem_iff hmem name).2 hla

end Iterations
end SetTable

namespace Grammar

open SetTable

variable {g : Grammar} {first a b table : SetTable} {name : String} {la : Lookahead}
  {las : Set Lookahead}

/-! ## FIRST sets -/

theorem mem_firstOf_congr (h : AgreeOn las a b) (hepsilon : .epsilon ∈ las) (hla : la ∈ las)
    (form : List String) : la ∈ firstOf a form ↔ la ∈ firstOf b form := by
  induction form with
  | nil => rw [mem_firstOf_nil, mem_firstOf_nil]
  | cons name rest ih =>
      rw [mem_firstOf_cons, mem_firstOf_cons, h.mem_iff hla, h.mem_iff hepsilon, ih]

theorem agreeOn_firstPass (g : Grammar) (hepsilon : .epsilon ∈ las) (h : AgreeOn las a b) :
    AgreeOn las (g.firstPass a) (g.firstPass b) := by
  refine AgreeOn.foldl ?_ g.productions.toList h
  intro entry a b h
  refine h.grow ?_
  intro la hla
  simp only [mem_firstOfAny, mem_firstOf_congr h hepsilon hla]

theorem mem_of_mem_firstPass (hname : name ∉ g.productions.keys.toFinset)
    (hla : la ∈ members (g.firstPass table) name) : la ∈ members table name := by
  rw [List.mem_toFinset] at hname
  rwa [members, find?_firstPass hname] at hla

/-- One pass for each production settles the empty lookahead, and another one for each of them then
settles all others. -/
theorem firstPass_iterate (g : Grammar) (table : SetTable) :
    g.firstPass (g.firstPass^[2 * g.productions.size] table) =
      g.firstPass^[2 * g.productions.size] table := by
  have hcard : g.productions.keys.toFinset.card ≤ g.productions.size := by
    have hlength := List.toFinset_card_le g.productions.keys
    simpa [ArrivalMap.keys, ArrivalMap.size] using hlength
  have hgrows := below_firstPass g
  have hlocal : ∀ {las : Set Lookahead}, .epsilon ∈ las → ∀ a b, AgreeOn las a b →
      AgreeOn las (g.firstPass a) (g.firstPass b) :=
    fun hepsilon _ _ => agreeOn_firstPass g hepsilon
  have hnames : ∀ (table : SetTable) (la : Lookahead) (k : Nat),
      ∀ name ∉ g.productions.keys.toFinset, la ∈ members (g.firstPass^[k + 1] table) name →
        la ∈ members (g.firstPass^[k] table) name := by
    intro table la k name hname hla
    rw [Function.iterate_succ_apply'] at hla
    exact mem_of_mem_firstPass hname hla
  have hempty := (settled_empty hgrows table).insert hgrows (hlocal (Set.mem_insert _ _))
    (hnames table .epsilon) hcard
  -- What is added of any other lookahead depends only on that lookahead and on the empty one.
  rw [Nat.two_mul, Function.iterate_add_apply]
  refine pass_eq_of_settled hgrows ?_
  intro la
  exact ⟨_, Set.mem_insert la _, hempty.insert hgrows
    (hlocal (Set.mem_insert_of_mem la (Set.mem_insert _ _))) (hnames _ la) hcard⟩

/-! ## FOLLOW sets -/

theorem agreeOn_foldr_followSymbol (form : List String) {state state' : SetTable × LookaheadSet}
    (htable : AgreeOn las state.1 state'.1)
    (htrailer : ∀ la ∈ las, la ∈ state.2 ↔ la ∈ state'.2) :
    AgreeOn las (form.foldr (g.followSymbol first) state).1
        (form.foldr (g.followSymbol first) state').1 ∧
      ∀ la ∈ las, la ∈ (form.foldr (g.followSymbol first) state).2 ↔
        la ∈ (form.foldr (g.followSymbol first) state').2 := by
  induction form with
  | nil => exact ⟨htable, htrailer⟩
  | cons name rest ih =>
      refine ⟨?_, ?_⟩
      · by_cases hname : name ∈ g.nonterminals
        · simpa [followSymbol, hname] using ih.1.grow ih.2
        · simpa [followSymbol, hname] using ih.1
      · intro la hla
        simp only [List.foldr_cons, followSymbol, mem_trailerBefore_iff, ih.2 la hla]

theorem agreeOn_followPass (g : Grammar) (first : SetTable) (h : AgreeOn las a b) :
    AgreeOn las (g.followPass first a) (g.followPass first b) := by
  -- Two loops: over the productions, and over the alternatives of each of them.
  refine AgreeOn.foldl ?_ g.productions.toList h
  intro production a b h
  refine AgreeOn.foldl ?_ production.2 h
  intro alternative a b h
  exact (agreeOn_foldr_followSymbol alternative h fun la hla => h.mem_iff hla production.1).1

/-- One pass for each nonterminal settles all lookaheads. -/
theorem followPass_iterate (g : Grammar) (first : SetTable) (goal : Option String) :
    g.followPass first ((g.followPass first)^[g.nonterminals.size] (g.followStart goal)) =
      (g.followPass first)^[g.nonterminals.size] (g.followStart goal) := by
  have hgrows := below_followPass g first
  have hnames : ∀ (la : Lookahead) (k : Nat), ∀ name ∉ g.nonterminals.toList.toFinset,
      la ∈ members ((g.followPass first)^[k + 1] (g.followStart goal)) name →
        la ∈ members ((g.followPass first)^[k] (g.followStart goal)) name := by
    intro la k name hname hla
    have hkey := mem_keys_of_mem_members hla
    rw [keys_iterate hgrows, mem_keys_followStart] at hkey
    exact absurd (List.mem_toFinset.2 hkey) hname
  refine pass_eq_of_settled hgrows ?_
  intro la
  exact ⟨_, Set.mem_insert la ∅, (settled_empty hgrows (g.followStart goal)).insert hgrows
    (fun _ _ => agreeOn_followPass g first) (hnames la)
    (List.toFinset_card_le g.nonterminals.toList)⟩

/-! ## Bounds -/

/-- For any grammar, the passes for FIRST sets only grow the sets and stop at a table that another
pass does not change, after at most two passes for each production and one more. So do the passes
for FOLLOW sets by any FIRST sets and any goal, after at most one for each nonterminal and one
more. A parsed text has as many productions as nonterminals. -/
theorem passes_linear (g : Grammar) :
    ((∀ table, Below table (g.firstPass table)) ∧
      RunsTo g.firstPass g.firstStart g.firstSets.1 g.firstSets.2 ∧
      g.firstPass g.firstSets.1 = g.firstSets.1 ∧
      g.firstSets.2 ≤ 2 * g.productions.size + 1) ∧
    (∀ first goal,
      (∀ table, Below table (g.followPass first table)) ∧
      RunsTo (g.followPass first) (g.followStart goal) (g.followSets first goal).1
        (g.followSets first goal).2 ∧
      g.followPass first (g.followSets first goal).1 = (g.followSets first goal).1 ∧
      (g.followSets first goal).2 ≤ g.nonterminals.size + 1) ∧
    ∀ tokens tree, Node.parse tokens = .ok tree → g = ofTree tree →
      g.productions.size = g.nonterminals.size ∧
      (Analysis.ofTree tree).firstPasses ≤ 2 * g.nonterminals.size + 1 ∧
      (Analysis.ofTree tree).followPasses ≤ g.nonterminals.size + 1 := by
  have hfirst : g.firstSets.2 ≤ 2 * g.productions.size + 1 :=
    (runsTo_firstSets g).passes_le (firstPass_iterate g g.firstStart)
  have hfollow : ∀ first goal, (g.followSets first goal).2 ≤ g.nonterminals.size + 1 :=
    fun first goal => (runsTo_followSets g first goal).passes_le (followPass_iterate g first goal)
  refine ⟨⟨below_firstPass g, runsTo_firstSets g, firstPass_firstSets g, hfirst⟩, ?_, ?_⟩
  · intro first goal
    exact ⟨below_followPass g first, runsTo_followSets g first goal,
      followPass_followSets g first goal, hfollow first goal⟩
  · rintro tokens tree hparse rfl
    have hsize : (ofTree tree).productions.size = (ofTree tree).nonterminals.size := by
      have hkeys := congrArg List.length (consistent_ofTree hparse).keys_eq
      simpa [ArrivalMap.keys, ArrivalMap.size, ArrivalSet.size] using hkeys
    exact ⟨hsize, hsize ▸ hfirst, hfollow _ _⟩

/-- `A : B; B : C; C : x | EPSILON;`, where a pass for FIRST sets reaches one name further up. -/
def upwards : Outline where
  first := ⟨"A", ":", .names "B" [], [], ";"⟩
  others :=
    [⟨"B", ":", .names "C" [], [], ";"⟩,
      ⟨"C", ":", .names "x" [], [("|", .empty "EPSILON")], ";"⟩]

theorem passes_linear_upwards :
    Node.parse upwards.tokens = .ok (upwards.tree "") ∧
      (Analysis.ofTree (upwards.tree "")).firstPasses ≤ 7 ∧
      (Analysis.ofTree (upwards.tree "")).followPasses ≤ 4 := by
  have hparse := Node.parse_tokens upwards
  rcases passes_linear (ofTree (upwards.tree "")) with ⟨_, _, hparsed⟩
  rcases hparsed _ _ hparse rfl with ⟨_, hfirst, hfollow⟩
  have hsize : (ofTree (upwards.tree "")).nonterminals.size = 3 := by decide
  rw [hsize] at hfirst hfollow
  exact ⟨hparse, hfirst, hfollow⟩

end Grammar
end BnfGrammar
