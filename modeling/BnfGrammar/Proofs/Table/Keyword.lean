import BnfGrammar.Proofs.Automaton.BreadthFirst
import BnfGrammar.Proofs.Automaton.Words
import BnfGrammar.Proofs.Table.Fields
import Mathlib.Data.List.Nodup

/-!
# Tables of keywords

Which words the compiled table of a keyword accepts. The automaton reads each letter in all of its
variants, but the table puts every character into one class. Where the labels of two letters are
different and share a variant, the label that is met later takes the variant over, and the letter
that comes first can no longer be written with it: the keyword `σς` does not accept `ΣΣ`. So the
table ignores case exactly if different labels of the keyword have no character in common.
-/

namespace BnfGrammar
namespace Automaton

variable {c : Char} {word : String} {i : Nat}

/-! ## Variants -/

/-- A character of the uppercase or the lowercase form of a letter. -/
def IsVariant (c letter : Char) : Prop :=
  c ∈ Text.upperForm letter ∨ c ∈ Text.lowerForm letter

instance (c letter : Char) : Decidable (IsVariant c letter) :=
  inferInstanceAs (Decidable (_ ∨ _))

theorem mem_caseVariants_iff {letter : Char} : c ∈ caseVariants letter ↔ IsVariant c letter := by
  have hfold : ∀ (lowers label : List Char), c ∈ lowers.foldl
      (fun label lower => if label.contains lower then label else label ++ [lower]) label ↔
        c ∈ label ∨ c ∈ lowers := by
    intro lowers
    induction lowers with
    | nil => simp
    | cons lower lowers ih =>
        intro label
        rw [List.foldl_cons, ih, List.mem_cons]
        by_cases hlower : lower ∈ label
        · rw [if_pos (List.contains_iff_mem.2 hlower)]
          constructor
          · exact Or.imp_right Or.inr
          · rintro (hc | rfl | hc)
            · exact Or.inl hc
            · exact Or.inl hlower
            · exact Or.inr hc
        · rw [if_neg fun h => hlower (List.contains_iff_mem.1 h), List.mem_append,
            List.mem_singleton, or_assoc]
  exact hfold _ _

theorem mem_letterLabel_iff {letter : Char} :
    c ∈ (letterLabel letter).toList ↔ IsVariant c letter := by
  rw [letterLabel, String.toList_ofList, mem_caseVariants_iff]

theorem exists_isVariant (letter : Char) : ∃ c, IsVariant c letter := by
  have hsequences : ∀ entry ∈ Text.upperSequences, entry.2 ≠ [] := by
    decide
  refine (List.exists_mem_of_ne_nil (Text.upperForm letter) ?_).imp fun c hc => Or.inl hc
  unfold Text.upperForm Text.caseForm
  split
  next entry hentry =>
    simpa using hsequences entry (List.mem_of_find?_eq_some hentry)
  next =>
    split
    · exact List.cons_ne_nil _ _
    · exact List.cons_ne_nil _ _

/-! ## The chain of a keyword -/

/-- The states of a keyword in the order of its letters. -/
def places (word : String) : List StateId :=
  (List.range (word.length + 1)).map UInt32.ofNat

theorem filter_zipIdx_place (letters : List Char) (i : Nat) :
    (letters.zipIdx.filter fun letter => letter.2 = i) =
      (letters[i]?.map fun letter => (letter, i)).toList := by
  induction letters using List.reverseRecOn with
  | nil => rfl
  | append_singleton letters last ih =>
      rw [List.zipIdx_append, List.filter_append, ih]
      rcases Nat.lt_trichotomy i letters.length with hlt | rfl | hgt
      · simp [List.getElem?_append_left hlt, Nat.ne_of_gt hlt]
      · simp
      · have hnone : (letters ++ [last])[i]? = none := by
          refine List.getElem?_eq_none ?_
          rw [List.length_append, List.length_singleton]
          exact hgt
        simp [hnone, List.getElem?_eq_none (Nat.le_of_lt hgt), Nat.ne_of_lt hgt]

/-- A state of a keyword has the edge of its letter, and the last one has none. -/
theorem edgesFrom_keyword (hsize : word.length < UInt32.size) (hi : i ≤ word.length) :
    (keyword word).edgesFrom (UInt32.ofNat i) =
      (word.toList[i]?.map fun letter => letterEdge (letter, i)).toList := by
  have hplace : ∀ letter ∈ word.toList.zipIdx,
      decide ((letterEdge letter).source = UInt32.ofNat i) = decide (letter.2 = i) := by
    intro letter hletter
    have hless := (List.getElem?_eq_some_iff.1 (List.mem_zipIdx_iff_getElem?.1 hletter)).1
    rw [String.length_toList] at hless
    exact decide_eq_decide.2 (state_inj hsize (Nat.le_of_lt hless) hi)
  rw [edgesFrom, edges_keyword, List.filter_map]
  have hfilter := (List.filter_congr hplace).trans (filter_zipIdx_place word.toList i)
  rw [Function.comp_def, hfilter]
  cases word.toList[i]? <;> rfl

theorem flatMap_letterEdge (letters : List Char) :
    ((List.range letters.length).flatMap fun i =>
        (letters[i]?.map fun letter => letterEdge (letter, i)).toList) =
      letters.zipIdx.map letterEdge := by
  induction letters using List.reverseRecOn with
  | nil => rfl
  | append_singleton letters last ih =>
      have hbefore : ∀ i ∈ List.range letters.length,
          ((letters ++ [last])[i]?.map fun letter => letterEdge (letter, i)).toList =
            (letters[i]?.map fun letter => letterEdge (letter, i)).toList := by
        intro i hi
        rw [List.getElem?_append_left (List.mem_range.1 hi)]
      rw [List.length_append, List.length_singleton, List.range_succ, List.flatMap_append,
        List.flatMap_congr hbefore, ih, List.zipIdx_append, List.map_append]
      simp

/-- Along the states of a keyword its edges are met in the order in which they were added. -/
theorem flatMap_edgesFrom_keyword (hsize : word.length < UInt32.size) :
    (places word).flatMap (keyword word).edgesFrom = (keyword word).edges := by
  have hplace : ∀ i ∈ List.range (word.length + 1),
      (keyword word).edgesFrom (UInt32.ofNat i) =
        (word.toList[i]?.map fun letter => letterEdge (letter, i)).toList :=
    fun i hi => edgesFrom_keyword hsize (Nat.le_of_lt_succ (List.mem_range.1 hi))
  rw [places, List.flatMap_map, List.flatMap_congr hplace, edges_keyword,
    ← flatMap_letterEdge, String.length_toList, List.range_succ, List.flatMap_append]
  -- No letter stands at the last state.
  simp [← String.length_toList]

theorem reachable_keyword (hi : i ≤ word.length) :
    (keyword word).Reachable (UInt32.ofNat i) := by
  induction i with
  | zero => exact .refl
  | succ i ih =>
      have hless : i < word.toList.length := by
        rw [String.length_toList]
        exact hi
      have hedge : letterEdge (word.toList[i], i) ∈ (keyword word).edges := by
        rw [edges_keyword]
        exact List.mem_map_of_mem
          (List.mem_zipIdx_iff_getElem?.2 (List.getElem?_eq_getElem hless))
      exact (ih (Nat.le_of_succ_le hi)).step ⟨_, hedge, rfl, rfl⟩

theorem nodup_places (hsize : word.length < UInt32.size) : (places word).Nodup := by
  refine List.Nodup.map_on (fun j hj i hi => ?_) List.nodup_range
  exact (state_inj hsize (Nat.le_of_lt_succ (List.mem_range.1 hj))
    (Nat.le_of_lt_succ (List.mem_range.1 hi))).1

theorem seenFrom_places (hsize : word.length < UInt32.size) :
    (keyword word).seenFrom (places word) = places word := by
  have hneighbors : (places word).flatMap (keyword word).neighbors =
      (keyword word).edges.map Edge.target := by
    rw [← flatMap_edgesFrom_keyword hsize, List.map_flatMap]
    rfl
  have htargets : start :: (keyword word).edges.map Edge.target = places word := by
    rw [places, List.range_succ_eq_map, List.map_cons, List.map_map, edges_keyword,
      List.map_map, List.range_eq_range', ← String.length_toList, ← List.zipIdx_map_snd,
      List.map_map]
    rfl
  rw [seenFrom, hneighbors, htargets, eraseDups_of_nodup (nodup_places hsize)]

/-- The states of a keyword come in breadth-first order. -/
theorem breadthFirst_keyword (hsize : word.length < UInt32.size) :
    (keyword word).BreadthFirst (places word) where
  mem_iff s := by
    refine ⟨fun hs => ?_, mem_of_seenFrom_subset ?_⟩
    · rcases List.mem_map.1 hs with ⟨i, hi, rfl⟩
      exact reachable_keyword (Nat.le_of_lt_succ (List.mem_range.1 hi))
    · rw [seenFrom_places hsize]
      exact List.Subset.refl _
  nodup := nodup_places hsize
  nearer := pairwise_nearer (seenFrom_places hsize).symm
  firstSeen := (seenFrom_places hsize).symm

theorem labels_keyword (hsize : word.length < UInt32.size) :
    (keyword word).labels.toList = (word.toList.map letterLabel).eraseDups := by
  have hreach : (keyword word).reach = places word :=
    (breadthFirst_reach _).unique (breadthFirst_keyword hsize)
  -- The label of an edge does not depend on the place of its letter.
  have hlabels : word.toList.zipIdx.map (Edge.label ∘ letterEdge) =
      (word.toList.zipIdx.map Prod.fst).map letterLabel := by
    rw [List.map_map]
    rfl
  rw [← Table.labelsAlong_reach, labelsAlong, hreach, flatMap_edgesFrom_keyword hsize,
    edges_keyword, List.map_map, hlabels, List.zipIdx_map_fst]

theorem size_labels_keyword (hsize : word.length < UInt32.size) :
    (keyword word).labels.size < UInt32.size := by
  have hsubset : (word.toList.map letterLabel).eraseDups ⊆ word.toList.map letterLabel :=
    fun label => List.mem_eraseDups.1
  have hfewer := (nodup_eraseDups _).length_le_of_subset hsubset
  rw [List.length_map, String.length_toList] at hfewer
  rw [ArrivalSet.size, labels_keyword hsize]
  exact Nat.lt_of_le_of_lt hfewer hsize

end Automaton

namespace Table

open Automaton

variable {kind : TokenKind} {a : Automaton} {s q : StateId} {c letter : Char} {label : String}
  {labels : List String} {word : String} {text : List Char} {i : Nat}

/-! ## Single edges -/

theorem lastWith_idxOf_iff (hnodup : labels.Nodup) (hlabel : label ∈ labels) :
    LastWith labels c (labels.idxOf label) ↔ c ∈ label.toList ∧
      ∀ other ∈ labels, c ∈ other.toList → labels.idxOf other ≤ labels.idxOf label := by
  have hplace : ∀ {l : String}, l ∈ labels → labels[labels.idxOf l]? = some l :=
    fun hl => List.getElem?_idxOf hl
  constructor
  · rintro ⟨⟨found, hfound, hc⟩, hlater⟩
    obtain rfl : label = found := Option.some.inj ((hplace hlabel).symm.trans hfound)
    refine ⟨hc, fun other hother hin => ?_⟩
    by_contra hless
    exact hlater _ other (Nat.lt_of_not_le hless) (hplace hother) hin
  · rintro ⟨hc, hothers⟩
    refine ⟨⟨label, hplace hlabel, hc⟩, fun later other hless hother hin => ?_⟩
    rcases List.getElem?_eq_some_iff.1 hother with ⟨hbound, rfl⟩
    have hle := hothers _ (List.getElem_mem hbound) hin
    rw [hnodup.idxOf_getElem] at hle
    exact Nat.not_le_of_lt hless hle

/-- A state with a single edge is left along it by the characters whose last label is that of the
edge. -/
theorem step_eq_some_iff_of_edge {edge : Edge} (hsize : a.labels.size < UInt32.size)
    (hs : a.Reachable s) (hedge : a.edgesFrom s = [edge]) :
    (compile kind a).step s c = some q ↔
      LastWith a.labels.toList c (a.labels.toList.idxOf edge.label) ∧ q = edge.target := by
  have htable := tabulates_compile kind hsize
  have hmem : edge.label ∈ a.labels.toList := by
    have hfrom : edge ∈ a.edgesFrom s := hedge ▸ List.mem_singleton_self edge
    rcases mem_edgesFrom.1 hfrom with ⟨hin, rfl⟩
    exact label_mem_labels (mem_reachableEdges_iff.2 ⟨hin, hs⟩)
  have hclass : (classOfLabel a.labels.toList edge.label).toNat =
      a.labels.toList.idxOf edge.label :=
    UInt32.toNat_ofNat_of_lt' (Nat.lt_trans (List.idxOf_lt_length_of_mem hmem) hsize)
  rw [step_eq_some_iff]
  constructor
  · rintro ⟨cls, hof, htransition⟩
    rcases (htable.transition_iff cls s q).1 htransition with ⟨_, label, hlabel, hlast⟩
    rw [hedge] at hlast
    by_cases hsame : edge.label = label
    · subst hsame
      obtain rfl := (classOfLabel_eq_iff hsize a.labels.nodup hmem).2 hlabel
      refine ⟨hclass ▸ (htable.classOf_eq_some_iff c _).1 hof, ?_⟩
      simpa [eq_comm] using hlast
    · simp [hsame] at hlast
  · rintro ⟨hlast, rfl⟩
    -- The edge has no rival, so it is the last one with its label.
    refine ⟨classOfLabel a.labels.toList edge.label,
      (htable.classOf_eq_some_iff c _).2 (hclass ▸ hlast), (htable.transition_iff _ s _).2 ?_⟩
    exact ⟨hs, edge.label, (classOfLabel_eq_iff hsize a.labels.nodup hmem).1 rfl, by simp [hedge]⟩

/-! ## Kept variants -/

/-- The number of the label of a letter, if the labels of a keyword are numbered in the order in
which they occur. -/
def labelNumber (word : String) (letter : Char) : Nat :=
  (word.toList.map letterLabel).eraseDups.idxOf (letterLabel letter)

/-- A variant of a letter that no letter of the keyword with a later label takes over. -/
def Keeps (word : String) (c letter : Char) : Prop :=
  IsVariant c letter ∧
    ∀ other ∈ word.toList, IsVariant c other → labelNumber word other ≤ labelNumber word letter

/-- Letters of a keyword with different labels have no variant in common. -/
def VariantsApart (word : String) : Prop :=
  ∀ letter ∈ word.toList, ∀ other ∈ word.toList, letterLabel letter ≠ letterLabel other →
    ∀ c ∈ (letterLabel letter).toList, c ∉ (letterLabel other).toList

-- The checks run through the letters of the keyword, never through all characters.
instance (word : String) (c letter : Char) : Decidable (Keeps word c letter) :=
  decidable_of_iff (IsVariant c letter ∧ (word.toList.all fun other =>
      !decide (IsVariant c other) || labelNumber word other ≤ labelNumber word letter) = true) (by
    simp [Keeps, imp_iff_not_or])

instance (word : String) : Decidable (VariantsApart word) :=
  decidable_of_iff ((word.toList.all fun letter => word.toList.all fun other =>
      letterLabel letter = letterLabel other ||
        (letterLabel letter).toList.all fun c => !(letterLabel other).toList.contains c) = true) (by
    simp [VariantsApart, or_iff_not_imp_left])

theorem lastWith_labels_keyword_iff (hletter : letter ∈ word.toList) :
    LastWith (word.toList.map letterLabel).eraseDups c (labelNumber word letter) ↔
      Keeps word c letter := by
  have hlabel : letterLabel letter ∈ (word.toList.map letterLabel).eraseDups :=
    List.mem_eraseDups.2 (List.mem_map_of_mem hletter)
  rw [labelNumber, lastWith_idxOf_iff (nodup_eraseDups _) hlabel, mem_letterLabel_iff]
  simp only [List.mem_eraseDups, List.forall_mem_map, mem_letterLabel_iff]
  rfl

/-- The table of a keyword reads a letter in those of its variants that it keeps. -/
theorem step_compile_keyword_iff (hsize : word.length < UInt32.size) (hi : i ≤ word.length) :
    (compile kind (keyword word)).step (UInt32.ofNat i) c = some q ↔
      ∃ letter, word.toList[i]? = some letter ∧ Keeps word c letter ∧ q = UInt32.ofNat (i + 1) := by
  have hlabels := size_labels_keyword hsize
  have hfrom := edgesFrom_keyword hsize hi
  cases hletter : word.toList[i]? with
  | none =>
      rw [hletter] at hfrom
      refine iff_of_false (fun hstep => ?_) (by simp)
      rcases exists_edge_of_step hlabels hstep with ⟨edge, hedge, hsource, _⟩
      have hmem : edge ∈ (keyword word).edgesFrom (UInt32.ofNat i) :=
        mem_edgesFrom.2 ⟨(mem_reachableEdges_iff.1 hedge).1, hsource⟩
      simp [hfrom] at hmem
  | some letter =>
      rw [hletter] at hfrom
      rw [step_eq_some_iff_of_edge hlabels (reachable_keyword hi) hfrom, labels_keyword hsize]
      have hkeeps : LastWith _ c ((word.toList.map letterLabel).eraseDups.idxOf
          (letterEdge (letter, i)).label) ↔ Keeps word c letter :=
        lastWith_labels_keyword_iff (List.mem_of_getElem? hletter)
      rw [hkeeps]
      exact ⟨fun h => ⟨letter, rfl, h⟩, fun ⟨_, hsame, h⟩ => Option.some.inj hsame ▸ h⟩

/-! ## Accepted words -/

theorem acceptsFrom_compile_keyword_iff (hsize : word.length < UInt32.size) (hword : word ≠ "") :
    ∀ {text i}, i ≤ word.length →
      ((compile kind (keyword word)).AcceptsFrom (UInt32.ofNat i) text ↔
        List.Forall₂ (Keeps word) text (word.toList.drop i)) := by
  have hpositive : word.length ≠ 0 := by
    simpa using hword
  -- By induction on the text, which is read from the place where its letters begin.
  intro text
  induction text with
  | nil =>
      intro i hi
      rw [acceptsFrom_nil_iff, isAccepting_compile, isAccepting_keyword_iff hsize hi,
        List.forall₂_nil_left_iff, List.drop_eq_nil_iff, String.length_toList]
      constructor
      · rintro ⟨_, hend, _⟩
        exact Nat.le_of_eq hend.symm
      · intro hend
        have hlast : i = word.length := Nat.le_antisymm hi hend
        exact ⟨reachable_keyword hi, hlast, hlast ▸ hpositive⟩
  | cons c text ih =>
      intro i hi
      simp only [AcceptsFrom, run_cons, Option.bind_eq_some_iff, step_compile_keyword_iff hsize hi]
      cases hletter : word.toList[i]? with
      | none =>
          have hend : word.toList.drop i = [] :=
            List.drop_eq_nil_iff.2 (List.getElem?_eq_none_iff.1 hletter)
          simp [hend]
      | some letter =>
          rcases List.getElem?_eq_some_iff.1 hletter with ⟨hless, rfl⟩
          have hmore : i + 1 ≤ word.length := String.length_toList ▸ hless
          rw [List.drop_eq_getElem_cons hless, List.forall₂_cons, ← ih hmore]
          constructor
          · rintro ⟨last, ⟨next, ⟨letter, hsame, hkeeps, rfl⟩, hrun⟩, haccepting⟩
            exact ⟨Option.some.inj hsame ▸ hkeeps, last, hrun, haccepting⟩
          · rintro ⟨hkeeps, last, hrun, haccepting⟩
            exact ⟨last, ⟨_, ⟨_, rfl, hkeeps, rfl⟩, hrun⟩, haccepting⟩

/-- The table of a keyword accepts the words that spell it in the variants that are kept. -/
theorem accepts_iff_forall₂_keeps (hsize : word.length < UInt32.size) (hword : word ≠ "") :
    (compile kind (keyword word)).Accepts text ↔ List.Forall₂ (Keeps word) text word.toList := by
  have hstart : (compile kind (keyword word)).AcceptsFrom (UInt32.ofNat 0) text ↔
      List.Forall₂ (Keeps word) text (word.toList.drop 0) :=
    acceptsFrom_compile_keyword_iff hsize hword (Nat.zero_le _)
  rwa [List.drop_zero] at hstart

/-- Spelling depends only on what is allowed for the letters of the word. -/
theorem forall₂_congr_of_mem {R S : Char → Char → Prop} :
    ∀ {letters : List Char} {text}, (∀ letter ∈ letters, ∀ c, R c letter ↔ S c letter) →
      (List.Forall₂ R text letters ↔ List.Forall₂ S text letters) := by
  intro letters
  induction letters with
  | nil => simp
  | cons letter letters ih =>
      intro text h
      rcases List.forall_mem_cons.1 h with ⟨hletter, hrest⟩
      cases text with
      | nil => simp
      | cons c text => rw [List.forall₂_cons, List.forall₂_cons, hletter c, ih hrest]

/-- Letters with variants that are apart keep all of them. -/
theorem VariantsApart.keeps_iff (h : VariantsApart word) (hletter : letter ∈ word.toList) :
    Keeps word c letter ↔ IsVariant c letter := by
  refine ⟨And.left, fun hc => ⟨hc, fun other hother hin => ?_⟩⟩
  have hsame : letterLabel letter = letterLabel other := by
    by_contra hne
    exact h letter hletter other hother hne c (mem_letterLabel_iff.2 hc)
      (mem_letterLabel_iff.2 hin)
  simp [labelNumber, hsame]

/-- If every spelling in variants is kept, a shared variant would be kept for both of its labels. -/
theorem variantsApart_of_forall₂
    (h : ∀ text, List.Forall₂ IsVariant text word.toList →
      List.Forall₂ (Keeps word) text word.toList) : VariantsApart word := by
  -- Every letter can be written in any of its variants, whatever the other letters are.
  have hkeeps : ∀ letter ∈ word.toList, ∀ c, IsVariant c letter → Keeps word c letter := by
    intro letter hletter c hc
    choose variant hvariant using exists_isVariant
    have hspelled : List.Forall₂ IsVariant
        (word.toList.map fun d => if d = letter then c else variant d) word.toList := by
      refine List.forall₂_map_left_iff.2 (List.forall₂_same.2 fun d _ => ?_)
      split
      next heq => exact heq ▸ hc
      next => exact hvariant d
    have hkept := List.forall₂_same.1 (List.forall₂_map_left_iff.1 (h _ hspelled)) letter hletter
    rwa [if_pos rfl] at hkept
  intro letter hletter other hother hne c hc hin
  rw [mem_letterLabel_iff] at hc hin
  have hsame : labelNumber word letter = labelNumber word other :=
    Nat.le_antisymm ((hkeeps other hother c hin).2 letter hletter hc)
      ((hkeeps letter hletter c hc).2 other hother hin)
  exact hne ((List.idxOf_inj (List.mem_eraseDups.2 (List.mem_map_of_mem hletter))).1 hsame)

/-- The table of a keyword accepts the words that spell it in the variants that its letters keep.
These are all spellings in uppercase and lowercase forms exactly if different labels of the keyword
have no character in common. -/
theorem accepts_compile_keyword_iff (kind : TokenKind) (word : String) (hword : word ≠ "")
    (hsize : word.length < UInt32.size) :
    (∀ text, (compile kind (keyword word)).Accepts text ↔
        List.Forall₂ (Keeps word) text word.toList) ∧
      ((∀ text, (compile kind (keyword word)).Accepts text ↔
          List.Forall₂ IsVariant text word.toList) ↔ VariantsApart word) := by
  have haccepts : ∀ text, (compile kind (keyword word)).Accepts text ↔
      List.Forall₂ (Keeps word) text word.toList :=
    fun text => accepts_iff_forall₂_keeps hsize hword
  refine ⟨haccepts, ?_, ?_⟩
  · intro h
    exact variantsApart_of_forall₂ fun text hspelled => (haccepts text).1 ((h text).2 hspelled)
  · intro hapart text
    rw [haccepts text]
    exact forall₂_congr_of_mem fun letter hletter c => hapart.keeps_iff hletter

theorem accepts_compile_keyword_iff_noon :
    (∀ text, (compile .symbol (keyword "noon")).Accepts text ↔
        List.Forall₂ IsVariant text "noon".toList) ∧
      ¬ ∀ text, (compile .symbol (keyword "ßs")).Accepts text ↔
        List.Forall₂ IsVariant text "ßs".toList := by
  have hkept : VariantsApart "noon" := by decide +kernel
  have hlost : ¬ VariantsApart "ßs" := by decide +kernel
  exact ⟨(accepts_compile_keyword_iff .symbol "noon" (by decide) (by decide)).2.2 hkept,
    fun h => hlost ((accepts_compile_keyword_iff .symbol "ßs" (by decide) (by decide)).2.1 h)⟩

/-- Both letters have the same uppercase form, which the second label takes over. -/
theorem not_accepts_compile_keyword_sigmas :
    List.Forall₂ IsVariant ['Σ', 'Σ'] "σς".toList ∧
      ¬ (compile .symbol (keyword "σς")).Accepts ['Σ', 'Σ'] := by
  have hlost : ¬ Keeps "σς" 'Σ' 'σ' := by decide +kernel
  refine ⟨.cons (by decide +kernel) (.cons (by decide +kernel) .nil), fun haccepts => ?_⟩
  have hkept := (accepts_iff_forall₂_keeps (by decide) (by decide)).1 haccepts
  exact hlost (List.forall₂_cons.1 hkept).1

end Table
end BnfGrammar
