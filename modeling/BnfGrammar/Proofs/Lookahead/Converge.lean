import BnfGrammar.Lookahead.Converge
import BnfGrammar.Proofs.Collections
import Mathlib.Data.Finset.Card
import Mathlib.Data.Finset.Dedup
import Mathlib.Data.Finset.Prod

/-!
# Growing tables

Tables of lookahead sets are ordered by inclusion at each name. `SetTable.grow` only ever goes up in
this order, so a sequence of such steps that ends where it began has not moved at all, and a pass
that changes nothing leaves every single step of it without effect.

The members of all sets of a table form a finite set of entries. A pass that only grows tables and
stays within a finite set of entries reaches a table that it does not change before the bound on the
number of passes runs out. So its passes are those of `SetTable.RunsTo`, which has no such bound and
counts the same passes.
-/

namespace BnfGrammar
namespace SetTable

variable {table other : SetTable} {name : String} {set : LookaheadSet} {la : Lookahead}

/-! ## Members -/

/-- The set of a name, which is empty for a name without one. -/
def members (table : SetTable) (name : String) : LookaheadSet :=
  (table.find? name).getD ∅

theorem members_of_find? (h : table.find? name = some set) : members table name = set := by
  simp [members, h]

theorem mem_keys_of_mem_members (h : la ∈ members table name) : name ∈ table.keys := by
  cases hfind : table.find? name with
  | none => simp [members, hfind] at h
  | some set => exact ArrivalMap.mem_keys_iff.2 ⟨set, hfind⟩

theorem find?_of_mem_keys (h : name ∈ table.keys) :
    table.find? name = some (members table name) := by
  rcases ArrivalMap.mem_keys_iff.1 h with ⟨set, hset⟩
  rw [members_of_find? hset, hset]

@[simp]
theorem keys_grow (table : SetTable) (name : String) (set : LookaheadSet) :
    (grow table name set).keys = table.keys :=
  ArrivalMap.keys_adjust table name _

theorem mem_members_grow {name' : String} :
    la ∈ members (grow table name set) name' ↔
      la ∈ members table name' ∨ (name = name' ∧ name ∈ table.keys ∧ la ∈ set) := by
  have hfind := ArrivalMap.find?_adjust table name name' (· ∪ set)
  by_cases hname : name = name'
  · subst hname
    cases hold : table.find? name with
    | none =>
        have hkey : name ∉ table.keys := ArrivalMap.find?_eq_none_iff.1 hold
        simp [members, grow, hfind, hold, hkey]
    | some old =>
        have hkey : name ∈ table.keys := ArrivalMap.mem_keys_iff.2 ⟨old, hold⟩
        simp [members, grow, hfind, hold, hkey, Std.ExtTreeSet.mem_union_iff]
  · simp [members, grow, hfind, hname]

/-! ## The order of tables -/

/-- Two tables have sets for the same names, and those of the second are at least as large. -/
structure Below (table other : SetTable) : Prop where
  keys_eq : table.keys = other.keys
  subset : ∀ {name la}, la ∈ members table name → la ∈ members other name

namespace Below

theorem refl (table : SetTable) : Below table table :=
  ⟨rfl, id⟩

theorem trans {a b c : SetTable} (hab : Below a b) (hbc : Below b c) : Below a c :=
  ⟨hab.keys_eq.trans hbc.keys_eq, fun h => hbc.subset (hab.subset h)⟩

theorem antisymm {a b : SetTable} (hab : Below a b) (hba : Below b a) : a = b := by
  apply ArrivalMap.ext_find? hab.keys_eq
  intro name
  by_cases hname : name ∈ a.keys
  · have hmembers : members a name = members b name := by
      apply Std.ExtTreeSet.ext_mem
      intro la
      exact ⟨hab.subset, hba.subset⟩
    rw [find?_of_mem_keys hname, find?_of_mem_keys (hab.keys_eq ▸ hname), hmembers]
  · rw [ArrivalMap.find?_eq_none_iff.2 hname,
      ArrivalMap.find?_eq_none_iff.2 (hab.keys_eq ▸ hname)]

end Below

theorem below_grow (table : SetTable) (name : String) (set : LookaheadSet) :
    Below table (grow table name set) :=
  ⟨(keys_grow table name set).symm, fun h => mem_members_grow.2 (Or.inl h)⟩

/-- Growing the set of a name by nothing new is the only way not to change a table. -/
theorem subset_of_grow_eq (h : grow table name set = table) (hname : name ∈ table.keys)
    (hla : la ∈ set) : la ∈ members table name := by
  rw [← h]
  exact mem_members_grow.2 (Or.inr ⟨rfl, hname, hla⟩)

/-! ## Sequences of steps -/

section Steps

variable {α : Type} {step : SetTable → α → SetTable}

theorem below_foldl (hstep : ∀ table a, Below table (step table a)) (l : List α)
    (table : SetTable) : Below table (l.foldl step table) := by
  apply List.foldlRecOn l step (Below.refl table)
  intro grown hgrown a _
  exact hgrown.trans (hstep grown a)

/-- Growing steps that end where they began have each changed nothing. -/
theorem step_eq_of_foldl_eq (hstep : ∀ table a, Below table (step table a)) :
    ∀ {l : List α}, l.foldl step table = table → ∀ a ∈ l, step table a = table := by
  intro l
  induction l with
  | nil =>
      intro _ a ha
      cases ha
  | cons b rest ih =>
      intro hfold a ha
      -- The table after the first step is above the first table and below the last, the same one.
      have hback : Below (step table b) table := by
        have hrest := below_foldl hstep rest (step table b)
        rwa [← List.foldl_cons, hfold] at hrest
      have hfirst : step table b = table := hback.antisymm (hstep table b)
      rcases List.mem_cons.1 ha with rfl | hmem
      · exact hfirst
      · rw [List.foldl_cons, hfirst] at hfold
        exact ih hfold a hmem

end Steps

/-! ## Entries -/

/-- The members of all sets of a table, each with the name of its set. -/
def entries (table : SetTable) : Finset (String × Lookahead) :=
  (table.toList.flatMap fun row => row.2.toList.map (row.1, ·)).toFinset

theorem mem_entries : (name, la) ∈ entries table ↔ la ∈ members table name := by
  simp only [entries, List.mem_toFinset, List.mem_flatMap, List.mem_map, Std.ExtTreeSet.mem_toList,
    Prod.mk.injEq]
  constructor
  · rintro ⟨⟨name', set⟩, hrow, la', hla, rfl, rfl⟩
    rwa [members_of_find? (ArrivalMap.find?_eq_some_iff.2 hrow)]
  · intro h
    have hfind := find?_of_mem_keys (mem_keys_of_mem_members h)
    exact ⟨(name, members table name), ArrivalMap.find?_eq_some_iff.1 hfind, la, h, rfl, rfl⟩

/-- A table has at most as many entries as its sets have members. -/
theorem card_entries_le_foldl (table : SetTable) :
    (entries table).card ≤ table.toList.foldl (fun total row => total + row.2.size) 0 := by
  -- The sizes are added up from the left, so the sum is followed from any start.
  have hlength : ∀ (rows : List (String × LookaheadSet)) (start : Nat),
      start + (rows.flatMap fun row => row.2.toList.map (row.1, ·)).length =
        rows.foldl (fun total row => total + row.2.size) start := by
    intro rows
    induction rows with
    | nil =>
        intro start
        rfl
    | cons row rows ih =>
        intro start
        rw [List.foldl_cons, ← ih]
        simp [Std.ExtTreeSet.length_toList, Nat.add_assoc]
  calc
    (entries table).card
        ≤ (table.toList.flatMap fun row => row.2.toList.map (row.1, ·)).length :=
          List.toFinset_card_le _
    _ = table.toList.foldl (fun total row => total + row.2.size) 0 := by
          simpa using hlength table.toList 0

theorem entries_subset (h : Below table other) : entries table ⊆ entries other := by
  rintro ⟨name, la⟩ hmem
  exact mem_entries.2 (h.subset (mem_entries.1 hmem))

theorem card_entries_lt (h : Below table other) (hne : table ≠ other) :
    (entries table).card < (entries other).card := by
  apply Finset.card_lt_card
  refine ⟨entries_subset h, ?_⟩
  -- If the entries were the same, the tables would be.
  intro hback
  apply hne
  refine h.antisymm ⟨h.keys_eq.symm, ?_⟩
  intro name la hla
  exact mem_entries.1 (hback (mem_entries.2 hla))

/-- A table has sets for no other names than some, and no other members in them than some. -/
structure Within (names : Finset String) (lookaheads : Finset Lookahead) (table : SetTable) :
    Prop where
  name_mem : ∀ {name}, name ∈ table.keys → name ∈ names
  member_mem : ∀ {name la}, la ∈ members table name → la ∈ lookaheads

namespace Within

variable {names : Finset String} {lookaheads : Finset Lookahead}

theorem grow (h : Within names lookaheads table) (hset : ∀ la ∈ set, la ∈ lookaheads) :
    Within names lookaheads (grow table name set) := by
  refine ⟨?_, ?_⟩
  · intro name' hname'
    rw [keys_grow] at hname'
    exact h.name_mem hname'
  · intro name' la hla
    rcases mem_members_grow.1 hla with hold | ⟨_, _, hnew⟩
    · exact h.member_mem hold
    · exact hset la hnew

theorem card_entries_le (h : Within names lookaheads table) :
    (entries table).card ≤ names.card * lookaheads.card := by
  rw [← Finset.card_product]
  apply Finset.card_le_card
  rintro ⟨name, la⟩ hmem
  have hla := mem_entries.1 hmem
  exact Finset.mem_product.2 ⟨h.name_mem (mem_keys_of_mem_members hla), h.member_mem hla⟩

end Within

/-! ## Convergence -/

section Converge

variable {pass : SetTable → SetTable}

/-- What a pass keeps is kept by all passes together. -/
theorem converge_keeps {P : SetTable → Prop} (hpass : ∀ table, P table → P (pass table)) :
    ∀ (limit : Nat) {table : SetTable}, P table → P (converge pass limit table).1 := by
  intro limit
  induction limit with
  | zero =>
      intro table htable
      exact htable
  | succ limit ih =>
      intro table htable
      by_cases hfixed : pass table = table
      · simpa [converge, hfixed] using htable
      · simpa [converge, hfixed] using ih (hpass table htable)

/-- Repeating a pass until it changes nothing, without a limit: the table that is reached and the
number of passes, the last one included. -/
inductive RunsTo (pass : SetTable → SetTable) : SetTable → SetTable → Nat → Prop
  | last {table : SetTable} : pass table = table → RunsTo pass table table 1
  | more {table final : SetTable} {passes : Nat} : pass table ≠ table →
      RunsTo pass (pass table) final passes → RunsTo pass table final (passes + 1)

namespace RunsTo

variable {final : SetTable} {passes : Nat}

theorem fixed (h : RunsTo pass table final passes) : pass final = final := by
  induction h with
  | last hfixed => exact hfixed
  | more _ _ ih => exact ih

/-- A run is over at the first table that the pass does not change. -/
theorem passes_le (h : RunsTo pass table final passes) :
    ∀ {k : Nat}, pass (pass^[k] table) = pass^[k] table → passes ≤ k + 1 := by
  induction h with
  | last _ =>
      intro k _
      exact Nat.le_add_left 1 k
  | more hchanged _ ih =>
      intro k hfixed
      cases k with
      | zero => exact absurd hfixed hchanged
      | succ k => exact Nat.succ_le_succ (ih hfixed)

end RunsTo

/-- A growing pass that stays within some names and lookaheads is repeated until it changes nothing,
if the limit leaves room for one pass more than there are entries to be added. -/
theorem runsTo_converge {names : Finset String} {lookaheads : Finset Lookahead}
    (hgrows : ∀ table, Below table (pass table))
    (hstays : ∀ table, Within names lookaheads table → Within names lookaheads (pass table)) :
    ∀ (limit : Nat) {table : SetTable}, Within names lookaheads table →
      names.card * lookaheads.card < (entries table).card + limit →
      RunsTo pass table (converge pass limit table).1 (converge pass limit table).2 := by
  intro limit
  induction limit with
  | zero =>
      intro table hwithin hroom
      -- There are more entries than fit.
      have hcard := hwithin.card_entries_le
      omega
  | succ limit ih =>
      intro table hwithin hroom
      by_cases hfixed : pass table = table
      · simpa [converge, hfixed] using RunsTo.last hfixed
      · -- A pass with an effect adds an entry, so there is still room for the passes that remain.
        have hmore := card_entries_lt (hgrows table) (Ne.symm hfixed)
        have hnext := ih (hstays table hwithin) (by omega)
        simpa [converge, hfixed] using RunsTo.more hfixed hnext

end Converge

end SetTable
end BnfGrammar
