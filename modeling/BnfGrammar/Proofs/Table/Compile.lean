import BnfGrammar.Proofs.Automaton.Paths
import BnfGrammar.Proofs.Table.Match
import Mathlib.Data.List.Basic

/-!
# Compiled tables

A table looks a step up by the class of the character, and a character has the class of the last
label that contains it. Whatever a compiled table does is therefore an edge of its automaton, but an
edge is lost where a later label takes one of its characters over. This file shows that

* the steps of a deterministic automaton are all kept exactly if different labels have no character
  in common;
* a table that keeps the steps accepts the same words as the automaton;
* where labels have a character in common, a warning was logged.
-/

namespace BnfGrammar

/-! ## Filling in order -/

section Filling

variable {ι κ ν σ : Type}

/-- If every item that passes a test replaces what is found and no other item matters, the last of
those items decides what is found after all of them. -/
theorem look_foldl_eq_last (look : σ → Option ν) {add : σ → ι → σ} (test : ι → Bool)
    (value : ι → ν)
    (hadd : ∀ m item, look (add m item) = if test item = true then some (value item) else look m)
    (items : List ι) :
    ∀ m, look (items.foldl add m) = ((items.filter test).getLast?.map value).or (look m) := by
  induction items with
  | nil => simp
  | cons item items ih =>
      intro m
      rw [List.foldl_cons, ih, hadd]
      by_cases htest : test item = true
      · rw [List.filter_cons_of_pos htest, List.getLast?_cons, if_pos htest]
        cases (items.filter test).getLast? <;> rfl
      · rw [List.filter_cons_of_neg htest, if_neg htest]

theorem getElem?_foldl_insert (cmp : κ → κ → Ordering) [Std.TransCmp cmp] [Std.LawfulEqCmp cmp]
    [DecidableEq κ] (key : ι → κ) (value : ι → ν) (k : κ) (items : List ι) :
    (items.foldl (fun found item => found.insert (key item) (value item))
        (∅ : Std.ExtTreeMap κ ν cmp))[k]? =
      (items.filter fun item => key item = k).getLast?.map value := by
  have hadd : ∀ (m : Std.ExtTreeMap κ ν cmp) (item : ι), (m.insert (key item) (value item))[k]? =
      if decide (key item = k) = true then some (value item) else m[k]? := by
    intro m item
    simp [Std.ExtTreeMap.getElem?_insert, Std.LawfulEqCmp.compare_eq_iff_eq]
  have hfold := look_foldl_eq_last (fun m : Std.ExtTreeMap κ ν cmp => m[k]?) _ value hadd items ∅
  simpa using hfold

theorem exists_getLast?_filter {items : List ι} (test : ι → Bool) {item : ι} (hitem : item ∈ items)
    (htest : test item = true) :
    ∃ last ∈ items, test last = true ∧ (items.filter test).getLast? = some last := by
  have hmem : item ∈ items.filter test := List.mem_filter.2 ⟨hitem, htest⟩
  have hlast := List.getLast?_eq_some_getLast (List.ne_nil_of_mem hmem)
  rcases List.mem_filter.1 (List.mem_of_getLast? hlast) with ⟨hin, hpasses⟩
  exact ⟨_, hin, hpasses, hlast⟩

end Filling

namespace Table

variable {kind : TokenKind} {a : Automaton} {s q : StateId} {c : Char} {label : String}
  {labels : List String} {cls : ClassId} {classes : Classes}

/-! ## Classes of characters -/

/-- Different labels have different classes, unless there are more labels than classes. -/
theorem classOfLabel_inj {other : String} (hsize : labels.length ≤ UInt32.size)
    (hlabel : label ∈ labels) (hother : other ∈ labels) :
    classOfLabel labels label = classOfLabel labels other ↔ label = other := by
  have hplace : ∀ l ∈ labels, (UInt32.ofNat (labels.idxOf l)).toNat = labels.idxOf l :=
    fun l hl =>
      UInt32.toNat_ofNat_of_lt' (Nat.lt_of_lt_of_le (List.idxOf_lt_length_of_mem hl) hsize)
  unfold classOfLabel
  rw [← UInt32.toNat_inj, hplace label hlabel, hplace other hother]
  exact List.idxOf_inj hlabel

namespace Classes

theorem ofChar_foldl_assign (cls : ClassId) (c : Char) (chars : List Char) :
    ∀ classes : Classes, (chars.foldl (assign cls) classes).ofChar[c]? =
      if c ∈ chars then some cls else classes.ofChar[c]? := by
  induction chars with
  | nil => simp
  | cons d chars ih =>
      intro classes
      rw [List.foldl_cons, ih]
      by_cases hmem : c ∈ chars
      · simp [hmem]
      · by_cases hd : d = c
        · simp [assign, hd]
        · have hne : ¬ c = d := fun he => hd he.symm
          simp [assign, Std.ExtTreeMap.getElem?_insert, hmem, hd, hne]

/-- The characters of a new label get its number, and the others keep their class. -/
theorem ofChar_addLabel (classes : Classes) (label : String × Nat) (c : Char) :
    (classes.addLabel label).ofChar[c]? =
      if decide (c ∈ label.1.toList) = true then some (UInt32.ofNat label.2)
      else classes.ofChar[c]? := by
  have hassign := ofChar_foldl_assign (UInt32.ofNat label.2) c label.1.toList classes
  simpa [addLabel] using hassign

/-- A character has the number of the last label that contains it. -/
theorem ofChar_ofLabels (labels : List String) (c : Char) :
    (ofLabels labels).ofChar[c]? =
      (labels.zipIdx.filter fun label => c ∈ label.1.toList).getLast?.map
        fun label => UInt32.ofNat label.2 := by
  have hfold := look_foldl_eq_last (fun classes : Classes => classes.ofChar[c]?) _
    (fun label => UInt32.ofNat label.2) (fun classes label => ofChar_addLabel classes label c)
    labels.zipIdx {}
  simpa [ofLabels] using hfold

/-- A character that has a class has that of a label that contains it. -/
theorem exists_label_of_class (hlabels : labels.Nodup)
    (h : (ofLabels labels).ofChar[c]? = some cls) :
    ∃ label ∈ labels, c ∈ label.toList ∧ classOfLabel labels label = cls := by
  rw [ofChar_ofLabels] at h
  rcases Option.map_eq_some_iff.1 h with ⟨⟨label, place⟩, hlast, rfl⟩
  rcases List.mem_filter.1 (List.mem_of_getLast? hlast) with ⟨hmem, hc⟩
  have hplace : labels[place]? = some label := List.mem_zipIdx_iff_getElem?.1 hmem
  rcases List.getElem?_eq_some_iff.1 hplace with ⟨hbound, rfl⟩
  refine ⟨_, List.getElem_mem hbound, by simpa using hc, ?_⟩
  rw [classOfLabel, hlabels.idxOf_getElem]

theorem exists_class_of_mem (hlabel : label ∈ labels) (hc : c ∈ label.toList) :
    ∃ cls, (ofLabels labels).ofChar[c]? = some cls := by
  rcases List.mem_iff_getElem?.1 hlabel with ⟨place, hplace⟩
  have hentry : (label, place) ∈ labels.zipIdx := List.mem_zipIdx_iff_getElem?.2 hplace
  rcases exists_getLast?_filter (fun entry : String × Nat => c ∈ entry.1.toList) hentry
    (by simpa using hc) with ⟨last, _, _, hlast⟩
  exact ⟨UInt32.ofNat last.2, by rw [ofChar_ofLabels, hlast]; rfl⟩

/-! ## Warnings -/

theorem mem_notices_foldl_assign {notice : Notice} (cls : ClassId) (chars : List Char) :
    ∀ classes : Classes, notice ∈ classes.notices →
      notice ∈ (chars.foldl (assign cls) classes).notices := by
  induction chars with
  | nil => exact fun _ h => h
  | cons d chars ih =>
      intro classes h
      refine ih _ ?_
      unfold assign
      cases classes.ofChar[d]? with
      | none => exact h
      | some previous => exact List.mem_append_left _ h

/-- A character that has a class when a label with it is numbered is told to have moved. -/
theorem exists_moved_foldl_assign (cls : ClassId) (c : Char) (chars : List Char) :
    ∀ classes : Classes, (∃ previous, classes.ofChar[c]? = some previous) → c ∈ chars →
      ∃ previous, .moved c previous cls ∈ (chars.foldl (assign cls) classes).notices := by
  induction chars with
  | nil => exact fun _ _ h => absurd h List.not_mem_nil
  | cons d chars ih =>
      rintro classes ⟨previous, hclass⟩ hmem
      by_cases hd : d = c
      · subst hd
        refine ⟨previous, mem_notices_foldl_assign cls chars _ ?_⟩
        simp [assign, hclass]
      · have hrest : c ∈ chars := (List.mem_cons.1 hmem).resolve_left fun he => hd he.symm
        refine ih _ ⟨previous, ?_⟩ hrest
        simpa [assign, Std.ExtTreeMap.getElem?_insert, hd] using hclass

theorem ofLabels_concat (labels : List String) (label : String) :
    ofLabels (labels ++ [label]) = (ofLabels labels).addLabel (label, labels.length) := by
  simp [ofLabels, List.zipIdx_append]

/-- If two of the labels have a character in common, it is told to have moved. -/
theorem exists_moved {first second : String} (hfirst : first ∈ labels) (hsecond : second ∈ labels)
    (hne : first ≠ second) (hc : c ∈ first.toList) (hc' : c ∈ second.toList) :
    ∃ previous current, .moved c previous current ∈ (ofLabels labels).notices := by
  induction labels using List.reverseRecOn with
  | nil => cases hfirst
  | append_singleton labels last ih =>
      have hlast : ∀ label ∈ labels, c ∈ label.toList → c ∈ last.toList → ∃ previous current,
          .moved c previous current ∈ (ofLabels (labels ++ [last])).notices := by
        intro label hlabel hin hlast
        rcases exists_moved_foldl_assign (UInt32.ofNat labels.length) c last.toList _
          (exists_class_of_mem hlabel hin) hlast with ⟨previous, hmoved⟩
        rw [ofLabels_concat]
        exact ⟨previous, _, List.mem_append_left _ hmoved⟩
      -- Either both labels were numbered before, or one of them is the last.
      rcases List.mem_append.1 hfirst with hold | hnew <;>
        rcases List.mem_append.1 hsecond with hold' | hnew'
      · rcases ih hold hold' with ⟨previous, current, hmoved⟩
        rw [ofLabels_concat]
        exact ⟨previous, current,
          List.mem_append_left _ (mem_notices_foldl_assign _ last.toList _ hmoved)⟩
      · exact hlast first hold hc (List.mem_singleton.1 hnew' ▸ hc')
      · exact hlast second hold' hc' (List.mem_singleton.1 hnew ▸ hc)
      · exact absurd ((List.mem_singleton.1 hnew).trans (List.mem_singleton.1 hnew').symm) hne

end Classes

/-! ## Lookups in a compiled table -/

theorem classOf_compile :
    (compile kind a).classOf c = (Classes.ofLabels a.labels.toList).ofChar[c]? :=
  rfl

/-- A transition is that of the last edge of its state and label. -/
theorem transitions_compile (cls : ClassId) (s : StateId) :
    (compile kind a).transitions[(cls, s)]? =
      (a.reachableEdges.filter fun edge =>
        (classOfLabel a.labels.toList edge.label, edge.source) = (cls, s)).getLast?.map
          Edge.target :=
  getElem?_foldl_insert byClassAndState
    (fun edge : Edge => (classOfLabel a.labels.toList edge.label, edge.source)) Edge.target (cls, s)
    a.reachableEdges

theorem isAccepting_compile :
    (compile kind a).isAccepting s = true ↔ a.Reachable s ∧ a.isAccepting s = true := by
  simp [isAccepting, compile, Std.ExtTreeSet.contains_ofList, Automaton.mem_reach_iff]

/-- A compiled table gives its own kind to the states at which a word may end. -/
theorem tokenAt_compile {found : TokenKind} :
    (compile kind a).tokenAt s = some found ↔
      (compile kind a).isAccepting s = true ∧ kind = found := by
  have hlast : (compile kind a).tokenAt s =
      ((a.reach.filter a.isAccepting).filter fun r => id r = s).getLast?.map fun _ => kind :=
    getElem?_foldl_insert compare id (fun _ : StateId => kind) s _
  rw [hlast, isAccepting_compile, ← Automaton.mem_reach_iff, ← List.mem_filter]
  constructor
  · intro h
    rcases Option.map_eq_some_iff.1 h with ⟨r, hr, hkind⟩
    rcases List.mem_filter.1 (List.mem_of_getLast? hr) with ⟨hmem, hsame⟩
    have hsame : r = s := by simpa using hsame
    exact ⟨hsame ▸ hmem, hkind⟩
  · rintro ⟨hmem, rfl⟩
    rcases exists_getLast?_filter (fun r => id r = s) hmem (by simp) with ⟨r, _, _, hr⟩
    rw [hr]
    rfl

/-! ## Steps -/

theorem step_eq_some_iff {t : Table} :
    t.step s c = some q ↔ ∃ cls, t.classOf c = some cls ∧ t.transitions[(cls, s)]? = some q := by
  unfold step
  cases t.classOf c <;> simp

theorem label_mem_labels {edge : Edge} (h : edge ∈ a.reachableEdges) :
    edge.label ∈ a.labels.toList := by
  rcases Automaton.mem_reachableEdges_iff.1 h with ⟨hedge, hsource⟩
  exact Automaton.mem_labels_iff.2 ⟨edge, hedge, hsource, rfl⟩

/-- A step of a compiled table is taken along an edge whose label gave the character its class. -/
theorem exists_edge_of_step (hsize : a.labels.size < UInt32.size)
    (h : (compile kind a).step s c = some q) :
    ∃ edge ∈ a.reachableEdges, edge.source = s ∧ edge.target = q ∧ c ∈ edge.label.toList ∧
      (compile kind a).classOf c = some (classOfLabel a.labels.toList edge.label) := by
  rcases step_eq_some_iff.1 h with ⟨cls, hclass, htransition⟩
  rw [transitions_compile] at htransition
  rcases Option.map_eq_some_iff.1 htransition with ⟨edge, hlast, htarget⟩
  rcases List.mem_filter.1 (List.mem_of_getLast? hlast) with ⟨hedge, hkey⟩
  have hkey : classOfLabel a.labels.toList edge.label = cls ∧ edge.source = s := by
    simpa using hkey
  rcases hkey with ⟨hedgeClass, hsource⟩
  rcases Classes.exists_label_of_class a.labels.nodup (classOf_compile ▸ hclass) with
    ⟨label, hlabel, hc, hlabelClass⟩
  have hsame : edge.label = label :=
    (classOfLabel_inj (Nat.le_of_lt hsize) (label_mem_labels hedge) hlabel).1
      (hedgeClass.trans hlabelClass.symm)
  exact ⟨edge, hedge, hsource, htarget, hsame ▸ hc, hedgeClass ▸ hclass⟩

theorem reads_of_step (hsize : a.labels.size < UInt32.size)
    (h : (compile kind a).step s c = some q) : a.Reads s c q := by
  rcases exists_edge_of_step hsize h with ⟨edge, hedge, hsource, htarget, hc, _⟩
  exact ⟨edge, (Automaton.mem_reachableEdges_iff.1 hedge).1, hsource, htarget, hc⟩

/-- If different labels have nothing in common, the edges of a deterministic automaton are kept. -/
theorem step_of_reads (hsize : a.labels.size < UInt32.size) (hdeterministic : a.Deterministic)
    (hapart : a.LabelsApart) (hs : a.Reachable s) (h : a.Reads s c q) :
    (compile kind a).step s c = some q := by
  rcases h with ⟨edge, hedge, rfl, rfl, hc⟩
  have hreached : edge ∈ a.reachableEdges := Automaton.mem_reachableEdges_iff.2 ⟨hedge, hs⟩
  have hlabel := label_mem_labels hreached
  -- The label that gave the character its class is the label of the edge.
  have hclass : (compile kind a).classOf c =
      some (classOfLabel a.labels.toList edge.label) := by
    rcases Classes.exists_class_of_mem hlabel hc with ⟨cls, hcls⟩
    rcases Classes.exists_label_of_class a.labels.nodup hcls with ⟨label, hmem, hin, rfl⟩
    rcases Automaton.mem_labels_iff.1 hmem with ⟨other, hother, hreachable, rfl⟩
    have hsame : edge.label = other.label := by
      by_contra hne
      exact hapart edge hedge other hother hs hreachable hne c hc hin
    rw [classOf_compile, hcls, hsame]
  -- The last edge of the state with that label can be taken on the character too.
  rcases exists_getLast?_filter (fun other : Edge =>
    (classOfLabel a.labels.toList other.label, other.source) =
      (classOfLabel a.labels.toList edge.label, edge.source)) hreached (by simp) with
    ⟨last, hmem, hkey, hlast⟩
  have hkey : classOfLabel a.labels.toList last.label = classOfLabel a.labels.toList edge.label ∧
      last.source = edge.source := by
    simpa using hkey
  rcases hkey with ⟨hlastClass, hsource⟩
  have hsame : last.label = edge.label :=
    (classOfLabel_inj (Nat.le_of_lt hsize) (label_mem_labels hmem) hlabel).1 hlastClass
  have hlastEdge : last ∈ a.edgesFrom edge.source :=
    Automaton.mem_edgesFrom.2 ⟨(Automaton.mem_reachableEdges_iff.1 hmem).1, hsource⟩
  have heq : last = edge := by
    by_contra hne
    exact hdeterministic edge.source hs last hlastEdge edge
      (Automaton.mem_edgesFrom.2 ⟨hedge, rfl⟩) hne c (hsame ▸ hc) hc
  refine step_eq_some_iff.2 ⟨_, hclass, ?_⟩
  rw [transitions_compile, hlast, heq]
  rfl

/-! ## Faithful tables -/

/-- At every state that the automaton can reach, a table has the same steps as the automaton. -/
def Faithful (t : Table) (a : Automaton) : Prop :=
  ∀ s, a.Reachable s → ∀ c q, t.step s c = some q ↔ a.Reads s c q

theorem faithful_of_labelsApart (hsize : a.labels.size < UInt32.size)
    (hdeterministic : a.Deterministic) (hapart : a.LabelsApart) : (compile kind a).Faithful a :=
  fun _ hs _ _ => ⟨reads_of_step hsize, step_of_reads hsize hdeterministic hapart hs⟩

/-- A label that loses a character to another one loses a step, because the edge that takes the
character over would leave the same state. -/
theorem labelsApart_of_faithful (hsize : a.labels.size < UInt32.size)
    (hdeterministic : a.Deterministic) (hfaithful : (compile kind a).Faithful a) :
    a.LabelsApart := by
  -- The label of every reachable edge gives its characters their class.
  have hclass : ∀ edge ∈ a.edges, a.Reachable edge.source → ∀ c ∈ edge.label.toList,
      (compile kind a).classOf c = some (classOfLabel a.labels.toList edge.label) := by
    intro edge hedge hs c hc
    have hstep := (hfaithful edge.source hs c edge.target).2 ⟨edge, hedge, rfl, rfl, hc⟩
    rcases exists_edge_of_step hsize hstep with ⟨taken, htaken, hsource, _, hin, hcls⟩
    have hedgeFrom := Automaton.mem_edgesFrom.2 ⟨hedge, rfl⟩
    have htakenFrom :=
      Automaton.mem_edgesFrom.2 ⟨(Automaton.mem_reachableEdges_iff.1 htaken).1, hsource⟩
    have hsame : edge = taken := by
      by_contra hne
      exact hdeterministic edge.source hs edge hedgeFrom taken htakenFrom hne c hc hin
    rw [hcls, hsame]
  intro edge hedge other hother hs hs' hne c hc hc'
  have hequal := Option.some.inj ((hclass edge hedge hs c hc).symm.trans
    (hclass other hother hs' c hc'))
  exact hne ((classOfLabel_inj (Nat.le_of_lt hsize)
    (label_mem_labels (Automaton.mem_reachableEdges_iff.2 ⟨hedge, hs⟩))
    (label_mem_labels (Automaton.mem_reachableEdges_iff.2 ⟨hother, hs'⟩))).1 hequal)

theorem exists_moved_of_not_labelsApart (h : ¬ a.LabelsApart) :
    ∃ c previous current, .moved c previous current ∈ compileNotices a := by
  unfold Automaton.LabelsApart at h
  push Not at h
  rcases h with ⟨edge, hedge, other, hother, hs, hs', hne, c, hc, hc'⟩
  have hlabel := label_mem_labels (Automaton.mem_reachableEdges_iff.2 ⟨hedge, hs⟩)
  have hlabel' := label_mem_labels (Automaton.mem_reachableEdges_iff.2 ⟨hother, hs'⟩)
  exact ⟨c, Classes.exists_moved hlabel hlabel' hne hc hc'⟩

/-! ## Words -/

variable {t : Table} {word : List Char}

theorem Faithful.run_eq_some_iff (h : t.Faithful a) :
    ∀ {s}, a.Reachable s → (t.run s word = some q ↔ a.Path s word q) := by
  -- By induction on the word. Every state on the way is reachable.
  induction word with
  | nil =>
      intro s _
      simp [Automaton.path_nil_iff]
  | cons c word ih =>
      intro s hs
      rw [run_cons, Option.bind_eq_some_iff, Automaton.path_cons_iff]
      refine exists_congr fun next => ?_
      rw [h s hs c next]
      exact and_congr_right fun hreads => ih (hs.step hreads.leads)

theorem Faithful.accepts_iff (h : (compile kind a).Faithful a) (word : List Char) :
    (compile kind a).Accepts word ↔ a.Accepts word := by
  refine exists_congr fun q => ?_
  rw [h.run_eq_some_iff .refl, isAccepting_compile]
  constructor
  · rintro ⟨hpath, _, haccepting⟩
    exact ⟨hpath, haccepting⟩
  · rintro ⟨hpath, haccepting⟩
    exact ⟨hpath, hpath.reachable .refl, haccepting⟩

/-- The table of a deterministic automaton keeps its steps exactly if different labels have no
character in common. If it keeps them it accepts the same words, and if not the log has a
warning. -/
theorem compile_faithful_iff (kind : TokenKind) (a : Automaton) (hdeterministic : a.Deterministic)
    (hsize : a.labels.size < UInt32.size) :
    ((compile kind a).Faithful a ↔ a.LabelsApart) ∧
      ((compile kind a).Faithful a →
        ∀ word, (compile kind a).Accepts word ↔ a.Accepts word) ∧
      (¬ (compile kind a).Faithful a → ∃ (c : Char) (previous current : ClassId),
        ⟨.warn, s!"[tables] {kind.name}: {Text.quotedChar c} moved from class {previous} to " ++
          s!"{current}; automaton is not deterministic"⟩ ∈ compileLog kind a) := by
  have hiff : (compile kind a).Faithful a ↔ a.LabelsApart :=
    ⟨labelsApart_of_faithful hsize hdeterministic, faithful_of_labelsApart hsize hdeterministic⟩
  refine ⟨hiff, fun hfaithful => hfaithful.accepts_iff, ?_⟩
  intro hunfaithful
  rcases exists_moved_of_not_labelsApart (hiff.not.1 hunfaithful) with
    ⟨c, previous, current, hmoved⟩
  exact ⟨c, previous, current, List.mem_map_of_mem hmoved⟩

/-- A cycle of two labels that have nothing in common. -/
def separated : Automaton :=
  ((Automaton.empty.addState 0 .accepting).addEdge 0 1 "ab").addEdge 1 0 "cd"

/-- Two labels that have `b` in common, on edges of different states. -/
def shared : Automaton :=
  ((Automaton.empty.addState 2 .accepting).addEdge 0 1 "ab").addEdge 1 2 "bc"

theorem compile_faithful_iff_shared :
    separated.Deterministic ∧ separated.labels.size < UInt32.size ∧
      (compile .symbol separated).Faithful separated ∧
      shared.Deterministic ∧ shared.labels.size < UInt32.size ∧
      ¬ (compile .symbol shared).Faithful shared ∧ ∃ c previous current,
        (Notice.moved c previous current).record .symbol ∈ compileLog .symbol shared := by
  have hkept : separated.Deterministic ∧ separated.labels.size < UInt32.size ∧
      separated.LabelsApart := by
    decide
  have hlost : shared.Deterministic ∧ shared.labels.size < UInt32.size ∧ ¬ shared.LabelsApart := by
    decide
  rcases compile_faithful_iff .symbol separated hkept.1 hkept.2.1 with ⟨hkeeps, _, _⟩
  rcases compile_faithful_iff .symbol shared hlost.1 hlost.2.1 with ⟨hloses, _, hwarns⟩
  have hunfaithful := hloses.not.2 hlost.2.2
  exact ⟨hkept.1, hkept.2.1, hkeeps.2 hkept.2.2, hlost.1, hlost.2.1, hunfaithful,
    hwarns hunfaithful⟩

end Table
end BnfGrammar
