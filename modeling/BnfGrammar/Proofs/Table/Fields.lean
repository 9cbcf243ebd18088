import BnfGrammar.Proofs.Automaton.BreadthFirst
import BnfGrammar.Proofs.Table.Compile

/-!
# The fields of compiled tables

What each field of a compiled table holds, told by the automaton alone. This holds of every
automaton: labels may overlap or be empty, an edge may be added twice, and a state may have several
edges with one label, of which the last decides. Labels are numbered in the order in which they are
met on the edges of the reachable states, if these are taken in breadth-first order.
-/

namespace BnfGrammar

/-- The labels on the edges of some states in turn, in the order in which they are met. -/
def Automaton.labelsAlong (a : Automaton) (states : List StateId) : List String :=
  ((states.flatMap a.edgesFrom).map Edge.label).eraseDups

namespace Table

variable {kind : TokenKind} {a : Automaton} {s q : StateId} {c : Char} {label : String}
  {labels : List String} {cls : ClassId} {place : Nat} {t : Table}

/-! ## Classes -/

/-- The label at a place is the last one that contains a character. -/
def LastWith (labels : List String) (c : Char) (place : Nat) : Prop :=
  (∃ label, labels[place]? = some label ∧ c ∈ label.toList) ∧
    ∀ later label, place < later → labels[later]? = some label → c ∉ label.toList

theorem lastWith_concat {last : String} :
    LastWith (labels ++ [last]) c place ↔
      if c ∈ last.toList then place = labels.length else LastWith labels c place := by
  have hend : (labels ++ [last])[labels.length]? = some last := by simp
  have hbefore : ∀ i < labels.length, (labels ++ [last])[i]? = labels[i]? :=
    fun i hi => List.getElem?_append_left hi
  have hplace : ∀ {i : Nat} {label : String}, (labels ++ [last])[i]? = some label →
      i < labels.length ∨ i = labels.length ∧ label = last := by
    intro i label h
    rcases Nat.lt_trichotomy i labels.length with hlt | rfl | hgt
    · exact Or.inl hlt
    · exact Or.inr ⟨rfl, (Option.some.inj (hend.symm.trans h)).symm⟩
    · have hbound : (labels ++ [last]).length ≤ i := by
        rw [List.length_append, List.length_singleton]
        exact hgt
      rw [List.getElem?_eq_none hbound] at h
      cases h
  by_cases hc : c ∈ last.toList
  · rw [if_pos hc]
    constructor
    · rintro ⟨⟨label, hlabel, _⟩, hlater⟩
      rcases hplace hlabel with hlt | ⟨heq, _⟩
      · exact absurd hc (hlater _ last hlt hend)
      · exact heq
    · rintro rfl
      refine ⟨⟨last, hend, hc⟩, fun later label hlater hlabel => ?_⟩
      rcases hplace hlabel with hlt | ⟨heq, _⟩
      · exact absurd hlt (Nat.lt_asymm hlater)
      · exact absurd heq (Nat.ne_of_gt hlater)
  · rw [if_neg hc]
    constructor
    · rintro ⟨⟨label, hlabel, hin⟩, hlater⟩
      rcases hplace hlabel with hlt | ⟨_, rfl⟩
      · refine ⟨⟨label, hbefore _ hlt ▸ hlabel, hin⟩, fun later other hmore hother => ?_⟩
        have hbound := (List.getElem?_eq_some_iff.1 hother).1
        exact hlater later other hmore ((hbefore later hbound).trans hother)
      · exact absurd hin hc
    · rintro ⟨⟨label, hlabel, hin⟩, hlater⟩
      have hbound := (List.getElem?_eq_some_iff.1 hlabel).1
      refine ⟨⟨label, (hbefore place hbound).trans hlabel, hin⟩, fun later other hmore hother => ?_⟩
      rcases hplace hother with hlt | ⟨_, rfl⟩
      · exact hlater later other hmore (hbefore later hlt ▸ hother)
      · exact hc

/-- The class of a character is the place of the last label with it. -/
theorem Classes.ofChar_eq_some_iff (hsize : labels.length < UInt32.size) :
    (ofLabels labels).ofChar[c]? = some cls ↔ LastWith labels c cls.toNat := by
  induction labels using List.reverseRecOn with
  | nil => simp [ofLabels, LastWith]
  | append_singleton labels last ih =>
      rw [List.length_append, List.length_singleton] at hsize
      rw [ofLabels_concat, ofChar_addLabel, lastWith_concat]
      by_cases hc : c ∈ last.toList
      · simp only [hc, decide_true, if_true, Option.some.injEq]
        rw [← UInt32.toNat_inj, UInt32.toNat_ofNat_of_lt' (by omega)]
        exact eq_comm
      · simp only [hc, decide_false, Bool.false_eq_true, if_false]
        exact ih (by omega)

theorem Classes.ofChar_eq_none_iff (hlabels : labels.Nodup) :
    (ofLabels labels).ofChar[c]? = none ↔ ∀ label ∈ labels, c ∉ label.toList := by
  constructor
  · intro h label hlabel hc
    rcases exists_class_of_mem hlabel hc with ⟨cls, hcls⟩
    rw [h] at hcls
    cases hcls
  · intro h
    cases hclass : (ofLabels labels).ofChar[c]? with
    | none => rfl
    | some cls =>
        rcases exists_label_of_class hlabels hclass with ⟨label, hlabel, hc, _⟩
        exact absurd hc (h label hlabel)

theorem classOfLabel_eq_iff (hsize : labels.length < UInt32.size) (hnodup : labels.Nodup)
    (hlabel : label ∈ labels) :
    classOfLabel labels label = cls ↔ labels[cls.toNat]? = some label := by
  have hplace : labels.idxOf label < labels.length := List.idxOf_lt_length_of_mem hlabel
  rw [classOfLabel, ← UInt32.toNat_inj, UInt32.toNat_ofNat_of_lt' (Nat.lt_trans hplace hsize)]
  constructor
  · intro h
    rw [← h, List.getElem?_eq_getElem hplace, List.getElem_idxOf]
  · intro h
    rcases List.getElem?_eq_some_iff.1 h with ⟨hbound, rfl⟩
    exact hnodup.idxOf_getElem _ _

/-! ## Transitions -/

/-- Of the edges of different states, those of one state are kept in their order. -/
theorem filter_flatMap_edgesFrom {states : List StateId} (hnodup : states.Nodup) :
    (states.flatMap a.edgesFrom).filter (fun edge => edge.source = s) =
      if s ∈ states then a.edgesFrom s else [] := by
  induction states with
  | nil => rfl
  | cons r states ih =>
      rcases List.nodup_cons.1 hnodup with ⟨hr, hstates⟩
      rw [List.flatMap_cons, List.filter_append, ih hstates]
      by_cases hrs : r = s
      · subst hrs
        have hall : (a.edgesFrom r).filter (fun edge => edge.source = r) = a.edgesFrom r :=
          List.filter_eq_self.2 fun edge hedge =>
            decide_eq_true (Automaton.mem_edgesFrom.1 hedge).2
        simp [hr, hall]
      · have hnone : (a.edgesFrom r).filter (fun edge => edge.source = s) = [] :=
          List.filter_eq_nil_iff.2 fun edge hedge hsource =>
            hrs ((Automaton.mem_edgesFrom.1 hedge).2.symm.trans (of_decide_eq_true hsource))
        have hne : ¬ s = r := fun he => hrs he.symm
        simp [hnone, hne]

/-- The edges that decide about a transition are those of its state that have the label of its
class. -/
theorem filter_reachableEdges (hsize : a.labels.size < UInt32.size) (hs : a.Reachable s)
    (hlabel : a.labels.toList[cls.toNat]? = some label) :
    (a.reachableEdges.filter fun edge =>
        (classOfLabel a.labels.toList edge.label, edge.source) = (cls, s)) =
      (a.edgesFrom s).filter fun edge => edge.label = label := by
  have hsplit : (a.reachableEdges.filter fun edge =>
      (classOfLabel a.labels.toList edge.label, edge.source) = (cls, s)) =
        (a.reachableEdges.filter fun edge => edge.source = s).filter fun edge =>
          classOfLabel a.labels.toList edge.label = cls := by
    rw [List.filter_filter]
    exact List.filter_congr fun edge _ => by simp [Prod.ext_iff]
  rw [hsplit, Automaton.reachableEdges,
    filter_flatMap_edgesFrom (Automaton.breadthFirst_reach a).nodup,
    if_pos (Automaton.mem_reach_iff.2 hs)]
  refine List.filter_congr fun edge hedge => ?_
  rcases Automaton.mem_edgesFrom.1 hedge with ⟨hin, rfl⟩
  have hmem : edge.label ∈ a.labels.toList :=
    label_mem_labels (Automaton.mem_reachableEdges_iff.2 ⟨hin, hs⟩)
  rw [decide_eq_decide, classOfLabel_eq_iff hsize a.labels.nodup hmem, hlabel, Option.some.injEq]
  exact eq_comm

theorem transition_compile_iff (hsize : a.labels.size < UInt32.size) :
    (compile kind a).transitions[(cls, s)]? = some q ↔
      a.Reachable s ∧ ∃ label, a.labels.toList[cls.toNat]? = some label ∧
        ((a.edgesFrom s).filter fun edge => edge.label = label).getLast?.map Edge.target =
          some q := by
  rw [transitions_compile]
  constructor
  · intro h
    rcases Option.map_eq_some_iff.1 h with ⟨edge, hlast, _⟩
    rcases List.mem_filter.1 (List.mem_of_getLast? hlast) with ⟨hedge, hkey⟩
    have hkey : classOfLabel a.labels.toList edge.label = cls ∧ edge.source = s := by
      simpa using hkey
    have hs : a.Reachable s := hkey.2 ▸ (Automaton.mem_reachableEdges_iff.1 hedge).2
    have hlabel : a.labels.toList[cls.toNat]? = some edge.label :=
      (classOfLabel_eq_iff hsize a.labels.nodup (label_mem_labels hedge)).1 hkey.1
    exact ⟨hs, edge.label, hlabel, filter_reachableEdges hsize hs hlabel ▸ h⟩
  · rintro ⟨hs, label, hlabel, h⟩
    rw [filter_reachableEdges hsize hs hlabel]
    exact h

/-! ## All fields -/

/-- A table holds an automaton whose labels are numbered by their places in a list. -/
structure Tabulates (t : Table) (kind : TokenKind) (a : Automaton) (labels : List String) :
    Prop where
  kind_eq : t.kind = kind
  mem_legal_iff : ∀ s, s ∈ t.legal ↔ a.Reachable s
  mem_accepting_iff : ∀ s, s ∈ t.accepting ↔ a.Reachable s ∧ a.tag? s = some .accepting
  tokenAt_eq : ∀ s, t.tokenAt s = if s ∈ t.accepting then some kind else none
  classCount_eq : t.classCount.toNat = labels.length
  classOf_eq_some_iff : ∀ (c : Char) (cls : ClassId), t.classOf c = some cls ↔
    LastWith labels c cls.toNat
  classOf_eq_none_iff : ∀ c, t.classOf c = none ↔ ∀ label ∈ labels, c ∉ label.toList
  /-- A transition leads to where the last edge of its state with the label of its class does. -/
  transition_iff : ∀ (cls : ClassId) (s q : StateId), t.transitions[(cls, s)]? = some q ↔
    a.Reachable s ∧ ∃ label, labels[cls.toNat]? = some label ∧
      ((a.edgesFrom s).filter fun edge => edge.label = label).getLast?.map Edge.target = some q

theorem labelsAlong_reach (a : Automaton) : a.labelsAlong a.reach = a.labels.toList :=
  (ArrivalSet.toList_ofList _).symm

/-- Exactly the accepting states of a compiled table have a kind. -/
theorem tokenAt_compile_eq (s : StateId) :
    (compile kind a).tokenAt s = if s ∈ (compile kind a).accepting then some kind else none := by
  by_cases hs : s ∈ (compile kind a).accepting
  · rw [if_pos hs]
    exact tokenAt_compile.2 ⟨Std.ExtTreeSet.contains_iff_mem.2 hs, rfl⟩
  · rw [if_neg hs, Option.eq_none_iff_forall_ne_some]
    intro found hfound
    exact hs (Std.ExtTreeSet.contains_iff_mem.1 (tokenAt_compile.1 hfound).1)

theorem tabulates_compile (kind : TokenKind) (hsize : a.labels.size < UInt32.size) :
    (compile kind a).Tabulates kind a a.labels.toList where
  kind_eq := rfl
  mem_legal_iff s := by
    simp [compile, Automaton.mem_reach_iff]
  mem_accepting_iff s := by
    have htag : a.isAccepting s = true ↔ a.tag? s = some .accepting := by
      simp [Automaton.isAccepting]
    rw [← Std.ExtTreeSet.contains_iff_mem, ← htag]
    exact isAccepting_compile
  tokenAt_eq := tokenAt_compile_eq
  classCount_eq := UInt32.toNat_ofNat_of_lt' hsize
  classOf_eq_some_iff c cls := Classes.ofChar_eq_some_iff hsize
  classOf_eq_none_iff c := Classes.ofChar_eq_none_iff a.labels.nodup
  transition_iff cls s q := transition_compile_iff hsize

/-- A step leads to the target of an edge that leaves a reachable state. -/
theorem Tabulates.legal_of_step (h : t.Tabulates kind a labels) (hstep : t.step s c = some q) :
    q ∈ t.legal := by
  rcases step_eq_some_iff.1 hstep with ⟨cls, _, htransition⟩
  rcases (h.transition_iff cls s q).1 htransition with ⟨hs, label, _, hlast⟩
  rcases Option.map_eq_some_iff.1 hlast with ⟨edge, hedge, rfl⟩
  have hfrom := (List.mem_filter.1 (List.mem_of_getLast? hedge)).1
  rcases Automaton.mem_edgesFrom.1 hfrom with ⟨hin, hsource⟩
  exact (h.mem_legal_iff _).2 (hs.step ⟨edge, hin, hsource, rfl⟩)

/-- The states that an automaton can reach have one breadth-first order. Its table holds the
automaton with the labels in the order in which they are met along it, and no step of the table
leaves the legal states. -/
theorem compile_tabulates (kind : TokenKind) (a : Automaton)
    (hsize : a.labels.size < UInt32.size) :
    (∃! states, a.BreadthFirst states) ∧
      (∀ states, a.BreadthFirst states →
        (compile kind a).Tabulates kind a (a.labelsAlong states)) ∧
      ∀ s c q, s ∈ (compile kind a).legal → (compile kind a).step s c = some q →
        q ∈ (compile kind a).legal := by
  have htable := tabulates_compile kind hsize
  have horder := Automaton.breadthFirst_reach a
  refine ⟨⟨a.reach, horder, fun states h => h.unique horder⟩, ?_, ?_⟩
  · intro states h
    rw [h.unique horder, labelsAlong_reach]
    exact htable
  · intro s c q _ hstep
    exact htable.legal_of_step hstep

/-- States with several edges on one character, an edge that was added twice, a label without
characters, a cycle and a state that cannot be reached. -/
def tangled : Automaton where
  tags := (((∅ : Std.ExtTreeMap StateId StateTag).insert 0 .passing).insert 2 .accepting).insert 9
    .accepting
  edges := [⟨0, 1, "ab"⟩, ⟨0, 2, "ab"⟩, ⟨1, 0, ""⟩, ⟨2, 1, "bc"⟩, ⟨0, 2, "ab"⟩, ⟨9, 9, "z"⟩]

theorem compile_tabulates_tangled :
    tangled.labels.size < UInt32.size ∧
      (compile .symbol tangled).Tabulates .symbol tangled ["ab", "", "bc"] ∧
      2 ∈ (compile .symbol tangled).accepting ∧ 9 ∉ (compile .symbol tangled).legal := by
  have hsize : tangled.labels.size < UInt32.size := by decide
  have hlabels : tangled.labelsAlong tangled.reach = ["ab", "", "bc"] := by decide
  have htable := (compile_tabulates .symbol tangled hsize).2.1 tangled.reach
    (Automaton.breadthFirst_reach tangled)
  rw [hlabels] at htable
  refine ⟨hsize, htable, (htable.mem_accepting_iff 2).2 (by decide), ?_⟩
  rw [htable.mem_legal_iff]
  decide

end Table
end BnfGrammar
