import BnfGrammar.Proofs.Lookahead.Follow
import BnfGrammar.Proofs.Lookahead.Prediction

/-!
# Lookaheads that occur

In the sets and in the prediction table of a grammar, nothing occurs but the end of the input, the
empty lookahead and the terminals of the grammar. Names without productions keep the FIRST sets that
they start with, so the set of a terminal holds just the terminal, and the set of the end marker
just the end of the input. No consistency is assumed, except where symbols and the marker have to be
told apart.
-/

namespace BnfGrammar

variable {g : Grammar} {first follow : SetTable} {name : String} {la : Lookahead}

namespace Grammar

open Productions SetTable

/-! ## FIRST and FOLLOW sets -/

theorem firstSets_within (g : Grammar) : Within g.firstNames g.firstLookaheads g.firstSets.1 :=
  converge_keeps (firstPass_within g) g.firstLimit (firstStart_within g)

theorem followSets_within (g : Grammar) (first : SetTable) (goal : Option String) :
    Within g.nonterminals.toList.toFinset (followLookaheads first) (g.followSets first goal).1 :=
  converge_keeps (followPass_within g first) (g.followLimit first) (followStart_within g first goal)

theorem mem_firstLookaheads_iff :
    la ∈ g.firstLookaheads ↔
      la = .finish ∨ la = .epsilon ∨ ∃ t ∈ g.terminals, la = .terminal t := by
  simp [firstLookaheads, ArrivalSet.mem_def, eq_comm]

theorem mem_firstLookaheads_of_mem_followLookaheads (h : la ∈ followLookaheads g.firstSets.1) :
    la ∈ g.firstLookaheads := by
  rcases Finset.mem_insert.1 h with rfl | hfirst
  · exact mem_firstLookaheads_iff.2 (Or.inl rfl)
  · rcases Finset.mem_image.1 hfirst with ⟨⟨name, la⟩, hentry, rfl⟩
    exact (firstSets_within g).member_mem (mem_entries.1 hentry)

theorem mem_firstLookaheads_of_follow {goal : Option String}
    (h : la ∈ members (g.followSets g.firstSets.1 goal).1 name) : la ∈ g.firstLookaheads :=
  mem_firstLookaheads_of_mem_followLookaheads ((followSets_within g _ goal).member_mem h)

/-! ## FIRST sets of names without productions -/

/-- A pass does not touch the set of a name without productions. -/
theorem find?_firstPass (hname : name ∉ g.productions.keys) (table : SetTable) :
    (g.firstPass table).find? name = table.find? name := by
  apply List.foldlRecOn (motive := fun grown : SetTable => grown.find? name = table.find? name)
    g.productions.toList _ rfl
  intro grown hgrown entry hentry
  have hne : entry.1 ≠ name := by
    rintro rfl
    exact hname (List.mem_map_of_mem hentry)
  change (grow grown entry.1 _).find? name = _
  rw [grow, ArrivalMap.find?_adjust, if_neg hne, hgrown]

theorem find?_firstSets (hname : name ∉ g.productions.keys) :
    g.firstSets.1.find? name = g.firstStart.find? name :=
  converge_keeps (P := fun table => table.find? name = g.firstStart.find? name)
    (fun table htable => (find?_firstPass hname table).trans htable) g.firstLimit rfl

theorem find?_firstSets_endMarker (hg : g.Consistent)
    (hunmarked : ¬ g.IsSymbol Lookahead.endMarker) :
    g.firstSets.1.find? Lookahead.endMarker = some {.finish} := by
  have hnot : Lookahead.endMarker ∉ g.nonterminals := fun h => hunmarked (Or.inl h)
  rw [find?_firstSets (mt hg.mem_keys_iff.1 hnot), find?_firstStart, if_neg hnot, if_pos rfl]

theorem find?_firstSets_terminal (hg : g.Consistent)
    (hunmarked : ¬ g.IsSymbol Lookahead.endMarker) (hname : name ∈ g.terminals) :
    g.firstSets.1.find? name = some {.terminal name} := by
  have hmarker : Lookahead.endMarker ≠ name := fun he => hunmarked (he ▸ Or.inr hname)
  rw [find?_firstSets (hg.not_mem_keys_of_terminal hname), find?_firstStart,
    if_neg (hg.disjoint hname), if_neg hmarker, if_pos hname]

end Grammar

/-! ## Prediction tables -/

namespace PredictionTable

variable {t : PredictionTable} {P : Lookahead → Prop} {lhs : String} {place : Nat}

/-- The lookaheads of all cells that have an alternative and of all conflicts have a property. -/
structure Only (P : Lookahead → Prop) (t : PredictionTable) : Prop where
  cell : ∀ {nonterminal la place}, t.get? nonterminal la = some place → P la
  conflict : ∀ c ∈ t.conflicts, P c.lookahead

theorem only_noteClash {holder : Nat} {conflicts : List Conflict} (hla : P la)
    (h : ∀ c ∈ conflicts, P c.lookahead) :
    ∀ c ∈ noteClash lhs la holder place conflicts, P c.lookahead := by
  induction conflicts with
  | nil => simpa [noteClash] using hla
  | cons first rest ih =>
      rcases List.forall_mem_cons.1 h with ⟨hfirst, hrest⟩
      rw [noteClash]
      split_ifs
      · exact List.forall_mem_cons.2 ⟨hfirst, hrest⟩
      · exact List.forall_mem_cons.2 ⟨hfirst, ih hrest⟩

namespace Only

theorem enter (h : Only P t) (hla : P la) : Only P (enter lhs place t la) := by
  cases hcell : t.get? lhs la with
  | none =>
      refine ⟨?_, ?_⟩
      · intro nonterminal la' other hother
        rw [get?_enter_of_free hcell] at hother
        split_ifs at hother with hsame
        · exact hsame.2 ▸ hla
        · exact h.cell hother
      · simpa [PredictionTable.enter, hcell] using h.conflict
  | some holder =>
      rw [enter_of_taken hcell]
      split_ifs
      · exact h
      · exact ⟨fun hother => h.cell hother, only_noteClash hla h.conflict⟩

theorem openRow (h : Only P t) (lhs : String) :
    Only P { t with rows := t.rows.alter lhs fun row => row.getD ∅ } := by
  refine ⟨?_, h.conflict⟩
  intro nonterminal la place hplace
  rw [get?_openRow] at hplace
  exact h.cell hplace

theorem enterRow (h : Only P t) {production : String × List Alternative}
    (hplus : ∀ alternative, ∀ la ∈ SetTable.firstPlus first follow production.1 alternative, P la) :
    Only P (enterRow first follow t production) := by
  -- Two loops: over the alternatives, and over the lookaheads that predict each of them.
  apply List.foldlRecOn production.2.zipIdx _ (h.openRow production.1)
  intro t ht alternative _
  apply List.foldlRecOn (SetTable.firstPlus first follow production.1 alternative.1).toList _ ht
  intro t ht la hla
  exact ht.enter (hplus alternative.1 la (Std.ExtTreeSet.mem_toList.1 hla))

end Only

theorem only_build (productions : Productions)
    (hplus : ∀ lhs alternative, ∀ la ∈ SetTable.firstPlus first follow lhs alternative, P la) :
    Only P (build productions first follow) := by
  have hempty : Only P {} := ⟨fun hplace => by simp [get?_eq_bind] at hplace, by simp⟩
  apply List.foldlRecOn productions.toList _ hempty
  intro t ht production _
  exact ht.enterRow (hplus production.1)

end PredictionTable

/-- Only lookaheads that FIRST sets can hold predict alternatives. -/
theorem Grammar.mem_firstLookaheads_of_mem_firstPlus {goal : Option String} {lhs : String}
    {alternative : Alternative}
    (h : la ∈ SetTable.firstPlus g.firstSets.1 (g.followSets g.firstSets.1 goal).1 lhs
      alternative) : la ∈ g.firstLookaheads := by
  rcases SetTable.mem_firstPlus.1 h with ⟨hfirst, _⟩ | ⟨_, hfollow⟩
  · exact mem_firstLookaheads_of_mem_firstOf g.firstSets_within hfirst
  · exact mem_firstLookaheads_of_follow hfollow

end BnfGrammar
