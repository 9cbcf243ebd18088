import BnfGrammar.Analysis
import BnfGrammar.Proofs.Lookahead.Prediction
import Mathlib.Data.List.Pairwise

/-!
# Prediction tables cell by cell

A prediction table is determined by the places of the alternatives that predict each cell, listed in
ascending order: the cell has the first of them, and if there are more, its one conflict lists them
all. This holds for any productions and any FIRST and FOLLOW sets.

While the table is filled, `PredictionTable.Records` says which places have been entered into each
cell so far. Entering a new place into a cell appends it to the places of that cell, and the three
loops around it (over the lookaheads, the alternatives and the productions) follow from that.
-/

namespace BnfGrammar

variable {first follow : SetTable} {lhs : String} {la : Lookahead}

/-! ## Conflicts as a map -/

namespace Conflict

/-- The cell that a conflict is about. -/
def cell (c : Conflict) : String × Lookahead :=
  (c.nonterminal, c.lookahead)

/-- A conflict as an entry of a map from cells to alternatives. -/
def entry (c : Conflict) : (String × Lookahead) × List Nat :=
  (c.cell, c.alternatives)

theorem entry_injective : Function.Injective entry := by
  rintro ⟨nonterminal, la, alternatives⟩ ⟨nonterminal', la', alternatives'⟩ h
  cases h
  rfl

theorem map_fst_map_entry (conflicts : List Conflict) :
    (conflicts.map entry).map Prod.fst = conflicts.map cell := by
  simp [entry, Function.comp_def]

end Conflict

namespace PredictionTable

open ArrivalMap (lookup alterList)

/-- To note a clash is to write to the map of conflicts. -/
theorem map_entry_noteClash (nonterminal : String) (la : Lookahead) (holder alternative : Nat)
    (conflicts : List Conflict) :
    (noteClash nonterminal la holder alternative conflicts).map Conflict.entry =
      alterList (nonterminal, la) (fun found => found.getD [holder] ++ [alternative])
        (conflicts.map Conflict.entry) := by
  induction conflicts with
  | nil => rfl
  | cons c rest ih =>
      by_cases hcell : c.nonterminal = nonterminal ∧ c.lookahead = la
      · simp [noteClash, alterList, Conflict.entry, Conflict.cell, hcell]
      · simp [noteClash, alterList, Conflict.entry, Conflict.cell, hcell, ih]

/-! ## Rows -/

variable {t : PredictionTable} {place : Nat}

theorem keys_enter (hlhs : lhs ∈ t.rows.keys) (place : Nat) (la : Lookahead) :
    (enter lhs place t la).rows.keys = t.rows.keys := by
  cases hcell : t.get? lhs la with
  | none => simp [enter, hcell, ArrivalMap.keys_alter, hlhs]
  | some holder =>
      rw [enter_of_taken hcell]
      split_ifs <;> rfl

theorem keys_enterRow (first follow : SetTable) (t : PredictionTable)
    (production : String × List Alternative) :
    (enterRow first follow t production).rows.keys =
      if production.1 ∈ t.rows.keys then t.rows.keys else t.rows.keys ++ [production.1] := by
  rw [← ArrivalMap.keys_alter t.rows production.1 fun row => row.getD ∅]
  generalize hkeys : (t.rows.alter production.1 fun row => row.getD ∅).keys = keys
  have hlhs : production.1 ∈ keys := by
    rw [← hkeys, ArrivalMap.keys_alter]
    split_ifs with hold
    · exact hold
    · simp
  -- Once the row is open, no entry into it adds another one.
  apply List.foldlRecOn (motive := fun t : PredictionTable => t.rows.keys = keys)
    production.2.zipIdx _ hkeys
  intro t ht alternative _
  apply List.foldlRecOn (motive := fun t : PredictionTable => t.rows.keys = keys)
    (SetTable.firstPlus first follow production.1 alternative.1).toList _ ht
  intro t ht la _
  rw [keys_enter (ht ▸ hlhs), ht]

theorem keys_foldl_enterRow (first follow : SetTable) :
    ∀ (entries : List (String × List Alternative)) (t : PredictionTable),
      (t.rows.keys ++ entries.map Prod.fst).Nodup →
        (entries.foldl (enterRow first follow) t).rows.keys =
          t.rows.keys ++ entries.map Prod.fst := by
  intro entries
  induction entries with
  | nil => simp
  | cons production entries ih =>
      intro t hnodup
      have hnew : production.1 ∉ t.rows.keys := by
        intro hold
        exact (List.nodup_append.1 hnodup).2.2 _ hold _ List.mem_cons_self rfl
      have hkeys : (enterRow first follow t production).rows.keys =
          t.rows.keys ++ [production.1] := by
        rw [keys_enterRow, if_neg hnew]
      rw [List.foldl_cons, ih _ (by simpa [hkeys] using hnodup), hkeys]
      simp

theorem keys_build (productions : Productions) (first follow : SetTable) :
    (build productions first follow).rows.keys = productions.keys :=
  keys_foldl_enterRow first follow productions.toList {} productions.nodup

/-! ## Places of cells -/

/-- A table into whose cells some places have been entered: a cell has the first of its places, and
a cell with more than one has a conflict that lists them. -/
structure Records (t : PredictionTable) (places : String → Lookahead → List Nat) : Prop where
  get?_eq : ∀ nonterminal la, t.get? nonterminal la = (places nonterminal la).head?
  conflict_eq : ∀ nonterminal la, lookup (nonterminal, la) (t.conflicts.map Conflict.entry) =
    if 2 ≤ (places nonterminal la).length then some (places nonterminal la) else none
  nodup : (t.conflicts.map Conflict.cell).Nodup

namespace Records

variable {places places' : String → Lookahead → List Nat}

theorem congr (h : Records t places) (hplaces : ∀ nonterminal la,
    places' nonterminal la = places nonterminal la) : Records t places' :=
  (funext₂ hplaces : places' = places) ▸ h

theorem mem_conflicts_iff (h : Records t places) {c : Conflict} :
    c ∈ t.conflicts ↔
      2 ≤ (places c.nonterminal c.lookahead).length ∧
        c.alternatives = places c.nonterminal c.lookahead := by
  have hnodup : ((t.conflicts.map Conflict.entry).map Prod.fst).Nodup :=
    Conflict.map_fst_map_entry t.conflicts ▸ h.nodup
  have hentry : c ∈ t.conflicts ↔
      lookup (c.nonterminal, c.lookahead) (t.conflicts.map Conflict.entry) =
        some c.alternatives := by
    rw [ArrivalMap.lookup_eq_some_iff hnodup]
    exact (List.mem_map_of_injective Conflict.entry_injective).symm
  rw [hentry, h.conflict_eq]
  split_ifs with hmany
  · simp [hmany, eq_comm]
  · simp [hmany]

theorem conflicts_eq_nil_iff (h : Records t places) :
    t.conflicts = [] ↔ ∀ nonterminal la, (places nonterminal la).length ≤ 1 := by
  rw [List.eq_nil_iff_forall_not_mem]
  constructor
  · intro hnone nonterminal la
    by_contra hmany
    exact hnone ⟨nonterminal, la, places nonterminal la⟩
      (h.mem_conflicts_iff.2 ⟨Nat.lt_of_not_le hmany, rfl⟩)
  · intro hfew c hc
    exact absurd (h.mem_conflicts_iff.1 hc).1 (Nat.not_le.2 (Nat.lt_succ_of_le (hfew _ _)))

/-- A new place joins those of its cell. -/
theorem enter (h : Records t places) (hnew : place ∉ places lhs la) :
    Records (enter lhs place t la) fun nonterminal la' =>
      if lhs = nonterminal ∧ la = la' then places nonterminal la' ++ [place]
      else places nonterminal la' := by
  have hcell := h.get?_eq lhs la
  cases hplaces : places lhs la with
  | nil =>
      rw [hplaces, List.head?_nil] at hcell
      have hconflicts : (PredictionTable.enter lhs place t la).conflicts = t.conflicts := by
        simp [PredictionTable.enter, hcell]
      refine ⟨?_, ?_, hconflicts ▸ h.nodup⟩
      · intro nonterminal la'
        rw [get?_enter_of_free hcell, h.get?_eq]
        split_ifs with hsame
        · simp [← hsame.1, ← hsame.2, hplaces]
        · rfl
      · intro nonterminal la'
        rw [hconflicts, h.conflict_eq]
        by_cases hsame : lhs = nonterminal ∧ la = la'
        · rcases hsame with ⟨rfl, rfl⟩
          simp [hplaces]
        · simp [hsame]
  | cons holder more =>
      rw [hplaces, List.head?_cons] at hcell
      have hne : ¬ holder = place := by
        rintro rfl
        exact hnew (hplaces ▸ List.mem_cons_self)
      rw [enter_of_taken hcell, if_neg hne]
      refine ⟨?_, ?_, ?_⟩
      · intro nonterminal la'
        change t.get? nonterminal la' = _
        rw [h.get?_eq]
        split_ifs with hsame
        · simp [← hsame.1, ← hsame.2, hplaces]
        · rfl
      · intro nonterminal la'
        change lookup (nonterminal, la')
          ((noteClash lhs la holder place t.conflicts).map Conflict.entry) = _
        rw [map_entry_noteClash, ArrivalMap.lookup_alterList, h.conflict_eq, h.conflict_eq]
        by_cases hsame : lhs = nonterminal ∧ la = la'
        · -- Whether or not there was a conflict before, it now lists all places and the new one.
          rcases hsame with ⟨rfl, rfl⟩
          cases more with
          | nil => simp [hplaces]
          | cons next more => simp [hplaces]
        · simp [hsame]
      · change ((noteClash lhs la holder place t.conflicts).map Conflict.cell).Nodup
        rw [← Conflict.map_fst_map_entry, map_entry_noteClash]
        exact ArrivalMap.nodup_alterList _ _ (Conflict.map_fst_map_entry t.conflicts ▸ h.nodup)

theorem openRow (h : Records t places) (lhs : String) :
    Records { t with rows := t.rows.alter lhs fun row => row.getD ∅ } places :=
  ⟨fun nonterminal la => (get?_openRow t lhs nonterminal la).trans (h.get?_eq nonterminal la),
    h.conflict_eq, h.nodup⟩

/-! ## The loops -/

theorem foldl_enter : ∀ (las : List Lookahead) {places t}, las.Nodup →
    (∀ la ∈ las, place ∉ places lhs la) → Records t places →
    Records (las.foldl (PredictionTable.enter lhs place) t) fun nonterminal la =>
      if lhs = nonterminal ∧ la ∈ las then places nonterminal la ++ [place]
      else places nonterminal la := by
  intro las
  induction las with
  | nil =>
      intro places t _ _ h
      exact h.congr fun _ _ => by simp
  | cons first las ih =>
      intro places t hnodup hnew h
      rcases List.nodup_cons.1 hnodup with ⟨hfirst, hlater⟩
      refine (ih hlater ?_ (h.enter (hnew first List.mem_cons_self))).congr ?_
      · -- The first lookahead does not come again, so the cells of the others are as they were.
        intro la hla
        have hne : ¬ first = la := fun he => hfirst (he ▸ hla)
        simpa [hne] using hnew la (List.mem_cons_of_mem first hla)
      · intro nonterminal la
        by_cases hla : first = la
        · subst hla
          simp [hfirst]
        · have hne : ¬ la = first := fun he => hla he.symm
          simp [hla, hne]

/-- A new place joins those of all cells that predict its alternative. -/
theorem enterAlternative (h : Records t places) {alternative : Alternative}
    (hnew : ∀ la, place ∉ places lhs la) :
    Records (enterAlternative first follow lhs t (alternative, place)) fun nonterminal la =>
      if lhs = nonterminal ∧ la ∈ SetTable.firstPlus first follow lhs alternative then
        places nonterminal la ++ [place]
      else places nonterminal la := by
  have hnodup : (SetTable.firstPlus first follow lhs alternative).toList.Nodup :=
    Std.ExtTreeSet.distinct_toList.imp fun hne he => hne (Std.compare_eq_iff_eq.2 he)
  have hfilled := foldl_enter _ hnodup (fun la _ => hnew la) h
  exact hfilled.congr fun nonterminal la => by simp

/-- The places from `start` on join those of all cells that predict their alternatives. -/
theorem foldl_enterAlternative (first follow : SetTable) (lhs : String) :
    ∀ (alternatives : List Alternative) (start : Nat) {places t},
      (∀ la, ∀ place ∈ places lhs la, place < start) → Records t places →
      Records
        ((alternatives.zipIdx start).foldl (PredictionTable.enterAlternative first follow lhs) t)
        fun nonterminal la =>
          if lhs = nonterminal then
            places nonterminal la ++ alternatives.findIdxs
              (fun alternative => la ∈ SetTable.firstPlus first follow lhs alternative) start
          else places nonterminal la := by
  intro alternatives
  induction alternatives with
  | nil =>
      intro start places t _ h
      exact h.congr fun _ _ => by simp
  | cons alternative alternatives ih =>
      intro start places t hless h
      have hnew : ∀ la, start ∉ places lhs la :=
        fun la hmem => absurd (hless la start hmem) (Nat.lt_irrefl start)
      rw [List.zipIdx_cons, List.foldl_cons]
      refine (ih (start + 1) ?_ (h.enterAlternative hnew)).congr ?_
      · -- The new place is the last one so far.
        intro la place hplace
        split_ifs at hplace
        · rcases List.mem_append.1 hplace with hold | hlast
          · exact Nat.lt_succ_of_lt (hless la place hold)
          · rw [List.mem_singleton.1 hlast]
            exact Nat.lt_succ_self start
        · exact Nat.lt_succ_of_lt (hless la place hplace)
      · intro nonterminal la
        by_cases hlhs : lhs = nonterminal
        · subst hlhs
          by_cases hla : la ∈ SetTable.firstPlus first follow lhs alternative
          · simp [hla]
          · simp [hla]
        · simp [hlhs]

/-- The row of a left-hand side that has no places yet. -/
theorem enterRow (h : Records t places) {production : String × List Alternative}
    (hnone : ∀ la, places production.1 la = []) :
    Records (enterRow first follow t production) fun nonterminal la =>
      if production.1 = nonterminal then
        production.2.findIdxs fun alternative =>
          la ∈ SetTable.firstPlus first follow production.1 alternative
      else places nonterminal la := by
  have hless : ∀ la, ∀ place ∈ places production.1 la, place < 0 := by
    intro la place hplace
    simp [hnone la] at hplace
  refine (foldl_enterAlternative first follow production.1 production.2 0 hless
    (h.openRow production.1)).congr ?_
  intro nonterminal la
  by_cases hlhs : production.1 = nonterminal
  · simp [hlhs, hlhs ▸ hnone la]
  · simp [hlhs]

end Records

/-- The places, in ascending order, of the alternatives of a left-hand side that a lookahead
predicts. -/
def placesIn (first follow : SetTable) (entries : List (String × List Alternative)) (lhs : String)
    (la : Lookahead) : List Nat :=
  ((lookup lhs entries).getD []).findIdxs fun alternative =>
    la ∈ SetTable.firstPlus first follow lhs alternative

theorem records_foldl_enterRow (first follow : SetTable) :
    ∀ (entries : List (String × List Alternative)) {places t}, (entries.map Prod.fst).Nodup →
      (∀ lhs ∈ entries.map Prod.fst, ∀ la, places lhs la = []) → Records t places →
      Records (entries.foldl (enterRow first follow) t) fun nonterminal la =>
        if nonterminal ∈ entries.map Prod.fst then placesIn first follow entries nonterminal la
        else places nonterminal la := by
  intro entries
  induction entries with
  | nil =>
      intro places t _ _ h
      exact h.congr fun _ _ => by simp
  | cons production entries ih =>
      intro places t hnodup hnone h
      rcases List.nodup_cons.1 hnodup with ⟨hhead, hlater⟩
      refine (ih hlater ?_ (h.enterRow (hnone production.1 List.mem_cons_self))).congr ?_
      · intro lhs hlhs la
        have hne : ¬ production.1 = lhs := fun he => hhead (he ▸ hlhs)
        rw [if_neg hne]
        exact hnone lhs (List.mem_cons_of_mem _ hlhs) la
      · intro nonterminal la
        by_cases hlhs : production.1 = nonterminal
        · subst hlhs
          simp [hhead, placesIn, lookup]
        · have hkey : nonterminal ∈ (production :: entries).map Prod.fst ↔
              nonterminal ∈ entries.map Prod.fst := by
            rw [List.map_cons, List.mem_cons]
            exact or_iff_right fun he => hlhs he.symm
          simp only [hkey, if_neg hlhs, placesIn, lookup]

theorem records_build (productions : Productions) (first follow : SetTable) :
    Records (build productions first follow)
      (placesIn first follow productions.toList) := by
  have hempty : Records {} fun _ _ => [] := by
    refine ⟨fun _ _ => rfl, fun _ _ => rfl, List.nodup_nil⟩
  refine (records_foldl_enterRow first follow productions.toList productions.nodup
    (fun _ _ _ => rfl) hempty).congr ?_
  intro nonterminal la
  split_ifs with hkey
  · rfl
  · have hnone : lookup nonterminal productions.toList = none :=
      ArrivalMap.find?_eq_none_iff.2 hkey
    simp [placesIn, hnone]

end PredictionTable

/-! ## Whole tables -/

namespace Analysis

/-- The places, in ascending order, of the alternatives of a left-hand side that a lookahead
predicts. -/
def places (a : Analysis) (lhs : String) (la : Lookahead) : List Nat :=
  ((a.grammar.productions.find? lhs).getD []).findIdxs fun alternative =>
    la ∈ a.firstPlus lhs alternative

theorem records_predictions (a : Analysis) : a.predictions.Records a.places :=
  PredictionTable.records_build a.grammar.productions a.first a.follow

/-- No two of some elements have a property if and only if at most one of them has it. -/
theorem pairwise_not_iff {α : Type} {p : α → Bool} {l : List α} :
    (l.Pairwise fun x y => p x = true → ¬ p y = true) ↔ l.countP p ≤ 1 := by
  have hfilter : (l.Pairwise fun x y => p x = true → ¬ p y = true) ↔
      (l.filter p).Pairwise fun _ _ => False :=
    List.pairwise_filter.symm
  rw [hfilter, List.countP_eq_length_filter]
  match l.filter p with
  | [] => simp
  | [_] => simp
  | x :: y :: rest =>
      have hpair : ¬ (x :: y :: rest).Pairwise fun _ _ => False :=
        fun h => (List.pairwise_cons.1 h).1 y List.mem_cons_self
      simp [hpair]

/-- No lookahead predicts two alternatives of a left-hand side if and only if none of them has more
than one place there. -/
theorem pairwise_iff_places {a : Analysis} {alternatives : List Alternative}
    (hfind : a.grammar.productions.find? lhs = some alternatives) :
    (alternatives.Pairwise fun x y => ∀ la, la ∈ a.firstPlus lhs x → la ∉ a.firstPlus lhs y) ↔
      ∀ la, (a.places lhs la).length ≤ 1 := by
  have hcount : ∀ la, (a.places lhs la).length ≤ 1 ↔
      alternatives.Pairwise fun x y => la ∈ a.firstPlus lhs x → la ∉ a.firstPlus lhs y := by
    intro la
    simp only [places, hfind, Option.getD_some, List.length_findIdxs, ← pairwise_not_iff,
      decide_eq_true_eq]
  simp only [hcount, List.pairwise_iff_getElem]
  constructor
  · exact fun h la i j hi hj hlt => h i j hi hj hlt la
  · exact fun h i j hi hj hlt la => h la i j hi hj hlt

/-- A prediction table and its conflicts are determined by what predicts the alternatives: a cell
has the first place that predicts it, every cell with more places has one conflict, which lists them
all in ascending order, and a table without conflicts is one where no two alternatives of a
left-hand side are predicted by the same lookahead. -/
theorem predictions_by_places (a : Analysis) :
    a.predictions.rows.keys = a.grammar.productions.keys ∧
      (∀ lhs la, a.predictions.get? lhs la = (a.places lhs la).head?) ∧
      (a.predictions.conflicts.map Conflict.cell).Nodup ∧
      (∀ c, c ∈ a.predictions.conflicts ↔
        2 ≤ (a.places c.nonterminal c.lookahead).length ∧
          c.alternatives = a.places c.nonterminal c.lookahead) ∧
      (a.predictions.isLL1 = true ↔
        ∀ lhs alternatives, a.grammar.productions.find? lhs = some alternatives →
          alternatives.Pairwise fun x y =>
            ∀ la, la ∈ a.firstPlus lhs x → la ∉ a.firstPlus lhs y) := by
  have hrecords := a.records_predictions
  refine ⟨PredictionTable.keys_build _ _ _, hrecords.get?_eq, hrecords.nodup,
    fun c => hrecords.mem_conflicts_iff, ?_⟩
  rw [PredictionTable.isLL1, List.isEmpty_iff, hrecords.conflicts_eq_nil_iff]
  constructor
  · intro hfew lhs alternatives hfind
    exact (pairwise_iff_places hfind).2 (hfew lhs)
  · intro happart lhs la
    cases hfind : a.grammar.productions.find? lhs with
    | none => simp [places, hfind]
    | some alternatives => exact (pairwise_iff_places hfind).1 (happart lhs alternatives hfind) la

/-- `S : a | b | a | a;`, where three alternatives begin with the same name. -/
example : (PredictionTable.build (.ofList [("S", [["a"], ["b"], ["a"], ["a"]])])
    (.ofList [("a", {.terminal "a"}), ("b", {.terminal "b"})]) ∅).conflicts =
      [⟨"S", .terminal "a", [0, 2, 3]⟩] := by
  decide +kernel

end Analysis
end BnfGrammar
