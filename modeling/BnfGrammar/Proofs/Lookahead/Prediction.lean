import BnfGrammar.Lookahead.Prediction
import BnfGrammar.Proofs.Collections
import BnfGrammar.Proofs.Lookahead.First

/-!
# Cells of prediction tables

While a prediction table is filled, a cell that has an alternative keeps it, and a conflict that has
been noted stays. So in a table without conflicts, every alternative holds all the cells that
predict it: had the cell been taken by another alternative before, a conflict would have been noted
and would still be there.
-/

namespace BnfGrammar

variable {first follow : SetTable} {lhs : String} {alternative : Alternative} {la : Lookahead}

namespace SetTable

theorem mem_firstPlus :
    la ∈ firstPlus first follow lhs alternative ↔
      (la ∈ firstOf first alternative ∧ la ≠ .epsilon) ∨
        (.epsilon ∈ firstOf first alternative ∧ la ∈ members follow lhs) := by
  by_cases hepsilon : .epsilon ∈ firstOf first alternative
  · have hplus : firstPlus first follow lhs alternative =
        (firstOf first alternative).erase .epsilon ∪ members follow lhs := if_pos hepsilon
    rw [hplus, Std.ExtTreeSet.mem_union_iff, LookaheadSet.mem_erase_iff]
    tauto
  · have hplus : firstPlus first follow lhs alternative = firstOf first alternative :=
      if_neg hepsilon
    have hne : la ∈ firstOf first alternative → la ≠ .epsilon := fun hla he => hepsilon (he ▸ hla)
    rw [hplus]
    tauto

end SetTable

namespace PredictionTable

variable {t t' : PredictionTable} {place : Nat}

/-! ## Single cells -/

theorem get?_eq_bind (t : PredictionTable) (nonterminal : String) (la : Lookahead) :
    t.get? nonterminal la = (t.rows.find? nonterminal).bind (·[la]?) :=
  rfl

theorem noteClash_ne_nil (nonterminal : String) (la : Lookahead) (holder alternative : Nat)
    (conflicts : List Conflict) : noteClash nonterminal la holder alternative conflicts ≠ [] := by
  cases conflicts with
  | nil => simp [noteClash]
  | cons c rest =>
      by_cases hcell : c.nonterminal = nonterminal ∧ c.lookahead = la
      · simp [noteClash, hcell]
      · simp [noteClash, hcell]

/-- The effect on all cells of entering an alternative into a free one. -/
theorem get?_enter_of_free (hfree : t.get? lhs la = none) (nonterminal : String) (la' : Lookahead) :
    (enter lhs place t la).get? nonterminal la' =
      if lhs = nonterminal ∧ la = la' then some place else t.get? nonterminal la' := by
  simp only [enter, hfree, get?_eq_bind, ArrivalMap.find?_alter]
  by_cases hlhs : lhs = nonterminal
  · subst hlhs
    by_cases hla : la = la'
    · simp [hla]
    · cases hrow : t.rows.find? lhs with
      | none => simp [hla]
      | some row => simp [hla, Std.ExtTreeMap.getElem?_insert]
  · simp [hlhs]

/-- A row that is opened has no cells yet. -/
theorem get?_openRow (t : PredictionTable) (lhs nonterminal : String) (la : Lookahead) :
    get? { t with rows := t.rows.alter lhs fun row => row.getD ∅ } nonterminal la =
      t.get? nonterminal la := by
  simp only [get?_eq_bind, ArrivalMap.find?_alter]
  by_cases hlhs : lhs = nonterminal
  · subst hlhs
    cases hrow : t.rows.find? lhs with
    | none => simp
    | some row => simp
  · simp [hlhs]

theorem enter_of_taken {holder : Nat} (htaken : t.get? lhs la = some holder) :
    enter lhs place t la =
      if holder = place then t
      else { t with conflicts := noteClash lhs la holder place t.conflicts } := by
  simp [enter, htaken]

/-! ## Growth -/

/-- The second table keeps the cells of the first, and it has conflicts if the first has. -/
structure Grows (t t' : PredictionTable) : Prop where
  conflicts_nil : t'.conflicts = [] → t.conflicts = []
  get? : ∀ {nonterminal la place}, t.get? nonterminal la = some place →
    t'.get? nonterminal la = some place

namespace Grows

theorem refl (t : PredictionTable) : Grows t t :=
  ⟨id, id⟩

theorem trans {a b c : PredictionTable} (hab : Grows a b) (hbc : Grows b c) : Grows a c :=
  ⟨fun h => hab.conflicts_nil (hbc.conflicts_nil h), fun h => hbc.get? (hab.get? h)⟩

end Grows

/-- The cell has the alternative, unless there are conflicts. -/
def Settled (t : PredictionTable) (lhs : String) (la : Lookahead) (place : Nat) : Prop :=
  t.conflicts = [] → t.get? lhs la = some place

theorem Settled.grows (hgrows : Grows t t') (h : Settled t lhs la place) :
    Settled t' lhs la place :=
  fun hnil => hgrows.get? (h (hgrows.conflicts_nil hnil))

theorem grows_enter (lhs : String) (place : Nat) (t : PredictionTable) (la : Lookahead) :
    Grows t (enter lhs place t la) := by
  cases hcell : t.get? lhs la with
  | none =>
      refine ⟨?_, ?_⟩
      · intro hnil
        simpa [enter, hcell] using hnil
      · -- A cell that has an alternative is not the free one.
        intro nonterminal la' other hother
        have hne : ¬ (lhs = nonterminal ∧ la = la') := by
          rintro ⟨rfl, rfl⟩
          simp [hcell] at hother
        rw [get?_enter_of_free hcell, if_neg hne, hother]
  | some holder =>
      rw [enter_of_taken hcell]
      by_cases hholder : holder = place
      · rw [if_pos hholder]
        exact Grows.refl t
      · rw [if_neg hholder]
        exact ⟨fun hnil => absurd hnil (noteClash_ne_nil lhs la holder place _), id⟩

theorem settled_enter (lhs : String) (place : Nat) (t : PredictionTable) (la : Lookahead) :
    Settled (enter lhs place t la) lhs la place := by
  intro hnil
  cases hcell : t.get? lhs la with
  | none => simp [get?_enter_of_free hcell]
  | some holder =>
      rw [enter_of_taken hcell] at hnil ⊢
      by_cases hholder : holder = place
      · rw [if_pos hholder, hcell, hholder]
      · -- Another alternative holds the cell, so there is a conflict now.
        rw [if_neg hholder] at hnil
        exact absurd hnil (noteClash_ne_nil lhs la holder place _)

/-! ## Sequences of entries -/

section Steps

variable {α : Type} {step : PredictionTable → α → PredictionTable}

theorem grows_foldl (hstep : ∀ t a, Grows t (step t a)) (l : List α) (t : PredictionTable) :
    Grows t (l.foldl step t) := by
  apply List.foldlRecOn l step (Grows.refl t)
  intro filled hfilled a _
  exact hfilled.trans (hstep filled a)

/-- What one step settles is settled after all steps. -/
theorem settled_foldl {a : α} (hstep : ∀ t a, Grows t (step t a))
    (hsettles : ∀ t, Settled (step t a) lhs la place) :
    ∀ {l : List α} (t : PredictionTable), a ∈ l → Settled (l.foldl step t) lhs la place := by
  intro l
  induction l with
  | nil =>
      intro t ha
      cases ha
  | cons b rest ih =>
      intro t ha
      -- The step itself settles it, and the steps behind it only grow the table.
      rcases List.mem_cons.1 ha with rfl | hrest
      · exact (hsettles t).grows (grows_foldl hstep rest (step t a))
      · exact ih (step t b) hrest

end Steps

theorem grows_enterAlternative (first follow : SetTable) (lhs : String) (t : PredictionTable)
    (alternative : Alternative × Nat) :
    Grows t (enterAlternative first follow lhs t alternative) :=
  grows_foldl (grows_enter lhs alternative.2) _ t

theorem grows_openRow (t : PredictionTable) (lhs : String) :
    Grows t { t with rows := t.rows.alter lhs fun row => row.getD ∅ } := by
  refine ⟨id, ?_⟩
  intro nonterminal la place hplace
  rwa [get?_openRow]

theorem grows_enterRow (first follow : SetTable) (t : PredictionTable)
    (production : String × List Alternative) : Grows t (enterRow first follow t production) :=
  (grows_openRow t production.1).trans
    (grows_foldl (grows_enterAlternative first follow production.1) _ _)

/-- In a table without conflicts an alternative has every cell that predicts it. -/
theorem get?_build_of_mem_firstPlus {productions : Productions} {alternatives : List Alternative}
    (hnil : (build productions first follow).conflicts = [])
    (hfind : productions.find? lhs = some alternatives)
    (hplace : alternatives[place]? = some alternative)
    (hla : la ∈ SetTable.firstPlus first follow lhs alternative) :
    (build productions first follow).get? lhs la = some place := by
  -- Three loops around one another: over the lookaheads, the alternatives and the productions.
  have hcell : ∀ t, Settled (enterAlternative first follow lhs t (alternative, place)) lhs la place :=
    fun t => settled_foldl (grows_enter lhs place) (fun t => settled_enter lhs place t la) t
      (Std.ExtTreeSet.mem_toList.2 hla)
  have hindexed : (alternative, place) ∈ alternatives.zipIdx := by
    simpa [List.mem_zipIdx_iff_getElem?] using hplace
  have hrow : ∀ t, Settled (enterRow first follow t (lhs, alternatives)) lhs la place :=
    fun t => settled_foldl (grows_enterAlternative first follow lhs) hcell _ hindexed
  exact settled_foldl (grows_enterRow first follow) hrow {} (ArrivalMap.find?_eq_some_iff.1 hfind)
    hnil

end PredictionTable
end BnfGrammar
