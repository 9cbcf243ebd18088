import BnfGrammar.Proofs.Table.Fields
import Mathlib.Data.Finset.Card

/-!
# Compiling by one worklist

`Table.compile` finds the reachable states first, numbers the labels of their edges next and fills
the fields of the table last. A worklist does all of this together: it takes one waiting state after
the other, and for each edge of the state it gives the label a class if it has none, adds the
transition, and lets the target wait if it was not found before.

This file shows that the worklist comes to an end, that the states have their turns in breadth-first
order, and that the table and the notices are those of `Table.compile`.
-/

namespace BnfGrammar
namespace Table

variable {kind : TokenKind} {a : Automaton} {s q : StateId} {edge : Edge} {edges : List Edge}
  {front : List StateId}

/-! ## Labels -/

/-- The labels met so far. -/
structure Numbering where
  labelClass : Std.ExtTreeMap String ClassId := ∅
  classes : Classes := {}

/-- The class of a label. A new label gets the next class, and its characters get it too. -/
def Numbering.classify (x : Numbering) (label : String) : ClassId × Numbering :=
  match x.labelClass[label]? with
  | some cls => (cls, x)
  | none =>
      let next := x.labelClass.size
      (UInt32.ofNat next,
        ⟨x.labelClass.insert label (UInt32.ofNat next), x.classes.addLabel (label, next)⟩)

/-! ## States -/

/-- The states found so far. -/
structure Discovery where
  /-- The states whose edges are still to be followed, in the order in which they were found. -/
  waiting : List StateId
  legal : Std.ExtTreeSet StateId
  accepting : Std.ExtTreeSet StateId := ∅
  tokenOf : Std.ExtTreeMap StateId TokenKind := ∅

namespace Discovery

/-- Notes the kind of the words that end at a state, if some may. -/
def mark (kind : TokenKind) (a : Automaton) (x : Discovery) (s : StateId) : Discovery :=
  if a.isAccepting s then
    { x with accepting := x.accepting.insert s, tokenOf := x.tokenOf.insert s kind }
  else x

/-- Lets a state wait, unless it was found before. -/
def enqueue (x : Discovery) (s : StateId) : Discovery :=
  if s ∈ x.legal then x else { x with waiting := x.waiting ++ [s], legal := x.legal.insert s }

@[simp]
theorem waiting_mark (x : Discovery) : (x.mark kind a q).waiting = x.waiting := by
  unfold mark
  split <;> rfl

@[simp]
theorem legal_mark (x : Discovery) : (x.mark kind a q).legal = x.legal := by
  unfold mark
  split <;> rfl

theorem mem_accepting_mark {x : Discovery} :
    s ∈ (x.mark kind a q).accepting ↔ s ∈ x.accepting ∨ s = q ∧ a.isAccepting q = true := by
  have hsame : q = s ↔ s = q := eq_comm
  by_cases haccepting : a.isAccepting q = true
  · simp [mark, haccepting, hsame, or_comm]
  · simp [mark, haccepting]

/-- Exactly the accepting states are given a kind. -/
theorem tokenOf_mark {x : Discovery}
    (h : ∀ s, x.tokenOf[s]? = if s ∈ x.accepting then some kind else none) (s : StateId) :
    (x.mark kind a q).tokenOf[s]? =
      if s ∈ (x.mark kind a q).accepting then some kind else none := by
  by_cases haccepting : a.isAccepting q = true
  · by_cases hsame : q = s
    · subst hsame
      simp [mark, haccepting]
    · simp [mark, haccepting, hsame, Std.ExtTreeMap.getElem?_insert, h]
  · simp [mark, haccepting, h]

@[simp]
theorem mem_legal_enqueue {x : Discovery} : s ∈ (x.enqueue q).legal ↔ s ∈ x.legal ∨ s = q := by
  have hsame : q = s ↔ s = q := eq_comm
  by_cases hq : q ∈ x.legal
  · have hmem : s = q → s ∈ x.legal := fun he => he ▸ hq
    simpa [enqueue, hq] using hmem
  · simp [enqueue, hq, hsame, or_comm]

@[simp]
theorem accepting_enqueue (x : Discovery) : (x.enqueue q).accepting = x.accepting := by
  unfold enqueue
  split <;> rfl

@[simp]
theorem tokenOf_enqueue (x : Discovery) : (x.enqueue q).tokenOf = x.tokenOf := by
  unfold enqueue
  split <;> rfl

/-- At first only the start was found. -/
def begin (kind : TokenKind) (a : Automaton) : Discovery :=
  mark kind a ⟨[Automaton.start], (∅ : Std.ExtTreeSet StateId).insert Automaton.start, ∅, ∅⟩
    Automaton.start

end Discovery

/-! ## The worklist -/

structure Worklist where
  states : Discovery
  labels : Numbering := {}
  transitions : Std.ExtTreeMap (ClassId × StateId) StateId byClassAndState := ∅

namespace Worklist

/-- Follows an edge of a state. -/
def follow (kind : TokenKind) (a : Automaton) (s : StateId) (x : Worklist) (edge : Edge) :
    Worklist :=
  let (cls, labels) := x.labels.classify edge.label
  { states := (x.states.mark kind a edge.target).enqueue edge.target
    labels := labels
    transitions := x.transitions.insert (cls, s) edge.target }

/-- Takes the first waiting state and follows its edges. -/
def turn? (kind : TokenKind) (a : Automaton) (x : Worklist) : Option Worklist :=
  match x.states.waiting with
  | [] => none
  | s :: waiting =>
      some ((a.edgesFrom s).foldl (follow kind a s)
        { x with states := { x.states with waiting := waiting } })

theorem turn?_eq_none_iff {x : Worklist} : x.turn? kind a = none ↔ x.states.waiting = [] := by
  unfold turn?
  cases x.states.waiting <;> simp

theorem exists_of_turn?_eq_some {x y : Worklist} (h : x.turn? kind a = some y) :
    ∃ s waiting, x.states.waiting = s :: waiting ∧
      y = (a.edgesFrom s).foldl (follow kind a s)
        { x with states := { x.states with waiting := waiting } } := by
  unfold turn? at h
  cases hwaiting : x.states.waiting with
  | nil =>
      rw [hwaiting] at h
      cases h
  | cons s waiting =>
      rw [hwaiting] at h
      exact ⟨s, waiting, rfl, (Option.some.inj h).symm⟩

/-! ## The end of the worklist -/

/-- The targets of edges that were not found. -/
def unfound (a : Automaton) (legal : Std.ExtTreeSet StateId) : Finset StateId :=
  (a.edges.map Edge.target).toFinset.filter (· ∉ legal)

/-- The number of turns that may be left. -/
def pending (a : Automaton) (x : Discovery) : Nat :=
  x.waiting.length + (unfound a x.legal).card

theorem pending_mark (x : Discovery) : pending a (x.mark kind a s) = pending a x := by
  simp [pending]

/-- A state that begins to wait is no longer among the states that were not found. -/
theorem pending_enqueue (x : Discovery) (hedge : edge ∈ a.edges) :
    pending a (x.enqueue edge.target) = pending a x := by
  unfold Discovery.enqueue
  by_cases hfound : edge.target ∈ x.legal
  · rw [if_pos hfound]
  · have hunfound : edge.target ∈ unfound a x.legal := by
      simpa [unfound, hfound] using ⟨edge, hedge, rfl⟩
    have herase : unfound a (x.legal.insert edge.target) =
        (unfound a x.legal).erase edge.target := by
      ext q
      have hsame : edge.target = q ↔ q = edge.target := eq_comm
      simp [unfound, hsame, and_left_comm]
    have hcard := Finset.card_erase_add_one hunfound
    rw [if_neg hfound]
    simp only [pending, List.length_append, List.length_singleton, herase]
    omega

theorem pending_foldl_follow (hedges : edges ⊆ a.edges) :
    ∀ x : Worklist, pending a (edges.foldl (follow kind a s) x).states = pending a x.states := by
  induction edges with
  | nil => exact fun _ => rfl
  | cons edge edges ih =>
      intro x
      have hedge : edge ∈ a.edges := hedges List.mem_cons_self
      rw [List.foldl_cons, ih fun _ h => hedges (List.mem_cons_of_mem _ h)]
      exact (pending_enqueue _ hedge).trans (pending_mark _)

theorem pending_turn_lt {x y : Worklist} (h : x.turn? kind a = some y) :
    pending a y.states < pending a x.states := by
  rcases exists_of_turn?_eq_some h with ⟨s, waiting, hwaiting, rfl⟩
  rw [pending_foldl_follow fun _ hedge => (Automaton.mem_edgesFrom.1 hedge).1]
  simp only [pending, hwaiting, List.length_cons]
  omega

/-- Takes turns until no state waits. -/
def finish (kind : TokenKind) (a : Automaton) (x : Worklist) : Worklist :=
  match _hturn : x.turn? kind a with
  | none => x
  | some y => finish kind a y
termination_by pending a x.states
decreasing_by exact pending_turn_lt _hturn

/-- The worklist of an automaton, after all turns. -/
def ofAutomaton (kind : TokenKind) (a : Automaton) : Worklist :=
  finish kind a { states := Discovery.begin kind a }

def table (kind : TokenKind) (x : Worklist) : Table where
  kind := kind
  classOfChar := x.labels.classes.ofChar
  transitions := x.transitions
  tokenOf := x.states.tokenOf
  accepting := x.states.accepting
  legal := x.states.legal
  classCount := UInt32.ofNat x.labels.labelClass.size

end Worklist

/-! ## What is known of the labels -/

/-- Exactly the labels of a set were met, in its order. -/
structure Numbering.Lists (x : Numbering) (labels : ArrivalSet String) : Prop where
  lookup : ∀ label, x.labelClass[label]? =
    if label ∈ labels then some (classOfLabel labels.toList label) else none
  size : x.labelClass.size = labels.size
  classes : x.classes = Classes.ofLabels labels.toList

section Labels

variable {x : Numbering} {labels : ArrivalSet String} {label : String}

/-- A label keeps its class when another one is met. -/
theorem classOfLabel_insert (h : label ∈ labels) (other : String) :
    classOfLabel (labels.insert other).toList label = classOfLabel labels.toList label := by
  by_cases hother : other ∈ labels
  · rw [ArrivalSet.insert_of_mem hother]
  · rw [ArrivalSet.toList_insert_of_notMem hother, classOfLabel, classOfLabel,
      List.idxOf_append_of_mem h]

theorem classOfLabel_insert_self (h : label ∉ labels) :
    classOfLabel (labels.insert label).toList label = UInt32.ofNat labels.size := by
  rw [ArrivalSet.toList_insert_of_notMem h, classOfLabel, List.idxOf_append_of_notMem h]
  simp [ArrivalSet.size]

namespace Numbering.Lists

theorem classify_of_mem (h : x.Lists labels) (hlabel : label ∈ labels) :
    x.classify label = (classOfLabel labels.toList label, x) := by
  have hlookup : x.labelClass[label]? = some (classOfLabel labels.toList label) := by
    rw [h.lookup, if_pos hlabel]
  rw [Numbering.classify, hlookup]

theorem lookup_of_notMem (h : x.Lists labels) (hlabel : label ∉ labels) :
    x.labelClass[label]? = none := by
  rw [h.lookup, if_neg hlabel]

/-- A new label is numbered behind all others. -/
theorem number (h : x.Lists labels) (hlabel : label ∉ labels) :
    Lists ⟨x.labelClass.insert label (UInt32.ofNat labels.size),
      x.classes.addLabel (label, labels.size)⟩ (labels.insert label) where
  lookup other := by
    rw [Std.ExtTreeMap.getElem?_insert, h.lookup]
    by_cases hother : label = other
    · subst hother
      simp [classOfLabel_insert_self hlabel]
    · have hne : ¬ other = label := fun he => hother he.symm
      by_cases hmem : other ∈ labels
      · simp [hother, hmem, classOfLabel_insert hmem]
      · simp [hother, hne, hmem]
  size := by
    have hfresh : label ∉ x.labelClass := by
      rw [Std.ExtTreeMap.mem_iff_isSome_getElem?, h.lookup_of_notMem hlabel]
      decide
    simp [Std.ExtTreeMap.size_insert, hfresh, h.size, ArrivalSet.size,
      ArrivalSet.toList_insert_of_notMem hlabel]
  classes := by
    rw [ArrivalSet.toList_insert_of_notMem hlabel, Classes.ofLabels_concat, h.classes]
    rfl

theorem classify (h : x.Lists labels) (label : String) :
    (x.classify label).1 = classOfLabel (labels.insert label).toList label ∧
      (x.classify label).2.Lists (labels.insert label) := by
  by_cases hlabel : label ∈ labels
  · rw [h.classify_of_mem hlabel, ArrivalSet.insert_of_mem hlabel]
    exact ⟨rfl, h⟩
  · rw [Numbering.classify, h.lookup_of_notMem hlabel, h.size]
    exact ⟨(classOfLabel_insert_self hlabel).symm, h.number hlabel⟩

end Numbering.Lists
end Labels

/-! ## What is known of the states -/

/-- Some states were found, of which those in front have had their turn. -/
structure Discovery.Finds (kind : TokenKind) (a : Automaton) (x : Discovery)
    (front : List StateId) (found : ArrivalSet StateId) : Prop where
  queue : front ++ x.waiting = found.toList
  mem_legal : ∀ s, s ∈ x.legal ↔ s ∈ found
  mem_accepting : ∀ s, s ∈ x.accepting ↔ s ∈ found ∧ a.isAccepting s = true
  tokenOf : ∀ s, x.tokenOf[s]? = if s ∈ x.accepting then some kind else none

namespace Discovery.Finds

variable {x : Discovery} {found : ArrivalSet StateId}

/-- A target is marked and waits unless it was found before. -/
theorem meet (h : x.Finds kind a front found) (q : StateId) :
    ((x.mark kind a q).enqueue q).Finds kind a front (found.insert q) where
  queue := by
    by_cases hq : q ∈ found
    · have hlegal : q ∈ x.legal := (h.mem_legal q).2 hq
      simp [enqueue, hlegal, h.queue, ArrivalSet.insert_of_mem hq]
    · have hlegal : q ∉ x.legal := fun hin => hq ((h.mem_legal q).1 hin)
      simp [enqueue, hlegal, ArrivalSet.toList_insert_of_notMem hq, ← h.queue]
  mem_legal s := by
    simp [h.mem_legal]
  mem_accepting s := by
    rw [accepting_enqueue, mem_accepting_mark, h.mem_accepting, ArrivalSet.mem_insert]
    grind
  tokenOf s := by
    rw [accepting_enqueue, tokenOf_enqueue]
    exact tokenOf_mark h.tokenOf s

theorem begin (kind : TokenKind) (a : Automaton) :
    (Discovery.begin kind a).Finds kind a [] (.ofList [Automaton.start]) where
  queue := by
    rw [Discovery.begin, waiting_mark]
    rfl
  mem_legal s := by
    have hsame : Automaton.start = s ↔ s = Automaton.start := eq_comm
    rw [Discovery.begin, legal_mark, ArrivalSet.mem_ofList, List.mem_singleton]
    simpa using hsame
  mem_accepting s := by
    rw [Discovery.begin, mem_accepting_mark]
    grind [ArrivalSet.mem_ofList]
  tokenOf s := by
    refine tokenOf_mark (fun s => ?_) s
    simp

end Discovery.Finds

/-! ## What is known of the worklist -/

/-- The labels of some edges. -/
def labelsOf (edges : List Edge) : ArrivalSet String :=
  .ofList (edges.map Edge.label)

/-- The start and the targets of some edges. -/
def foundBy (edges : List Edge) : ArrivalSet StateId :=
  .ofList (Automaton.start :: edges.map Edge.target)

theorem labelsOf_concat : labelsOf (edges ++ [edge]) = (labelsOf edges).insert edge.label := by
  rw [labelsOf, List.map_append, List.map_singleton, ArrivalSet.ofList_concat]
  rfl

theorem foundBy_concat : foundBy (edges ++ [edge]) = (foundBy edges).insert edge.target := by
  rw [foundBy, List.map_append, List.map_singleton, ← List.cons_append, ArrivalSet.ofList_concat]
  rfl

/-- Adds the transition of an edge. -/
def addTransition (labels : List String)
    (transitions : Std.ExtTreeMap (ClassId × StateId) StateId byClassAndState) (edge : Edge) :
    Std.ExtTreeMap (ClassId × StateId) StateId byClassAndState :=
  transitions.insert (classOfLabel labels edge.label, edge.source) edge.target

/-- Some edges were followed, and the states in front have had their turn. -/
structure Worklist.Follows (kind : TokenKind) (a : Automaton) (x : Worklist)
    (front : List StateId) (edges : List Edge) : Prop where
  states : x.states.Finds kind a front (foundBy edges)
  labels : x.labels.Lists (labelsOf edges)
  transitions : x.transitions = edges.foldl (addTransition (labelsOf edges).toList) ∅

namespace Worklist.Follows

variable {x y : Worklist}

theorem begin (kind : TokenKind) (a : Automaton) :
    Follows kind a { states := Discovery.begin kind a } [] [] where
  states := .begin kind a
  labels := ⟨fun _ => by simp [labelsOf, ArrivalSet.mem_ofList], rfl, rfl⟩
  transitions := rfl

theorem transitions_concat (hsource : edge.source = s) :
    ((edges.foldl (addTransition (labelsOf edges).toList) ∅).insert
        (classOfLabel (labelsOf (edges ++ [edge])).toList edge.label, s) edge.target) =
      (edges ++ [edge]).foldl (addTransition (labelsOf (edges ++ [edge])).toList) ∅ := by
  have hkept : edges.foldl (addTransition (labelsOf (edges ++ [edge])).toList) ∅ =
      edges.foldl (addTransition (labelsOf edges).toList) ∅ := by
    -- Their labels were met before, so they keep their classes.
    refine List.foldl_ext _ _ _ fun transitions other hother => ?_
    have hmet : other.label ∈ labelsOf edges :=
      ArrivalSet.mem_ofList.2 (List.mem_map_of_mem hother)
    rw [addTransition, addTransition, labelsOf_concat, classOfLabel_insert hmet]
  rw [List.foldl_append, hkept, ← hsource]
  rfl

theorem follow (h : x.Follows kind a front edges) (hsource : edge.source = s) :
    (x.follow kind a s edge).Follows kind a front (edges ++ [edge]) where
  states := by
    rw [foundBy_concat]
    exact h.states.meet edge.target
  labels := by
    rw [labelsOf_concat]
    exact (h.labels.classify edge.label).2
  transitions := by
    rw [← transitions_concat hsource, ← h.transitions, labelsOf_concat,
      ← (h.labels.classify edge.label).1]
    rfl

theorem foldl_follow {more : List Edge} (hmore : ∀ edge ∈ more, edge.source = s) :
    ∀ {x : Worklist} {edges : List Edge}, x.Follows kind a front edges →
      (more.foldl (Worklist.follow kind a s) x).Follows kind a front (edges ++ more) := by
  induction more with
  | nil =>
      intro x edges h
      rwa [List.append_nil]
  | cons edge more ih =>
      intro x edges h
      rcases List.forall_mem_cons.1 hmore with ⟨hsource, hmore⟩
      rw [List.append_cons]
      exact ih hmore (h.follow hsource)

/-- In a turn the first waiting state moves to the front, and its edges are followed. -/
theorem turn (h : x.Follows kind a front (front.flatMap a.edgesFrom))
    (hturn : x.turn? kind a = some y) :
    ∃ s ∈ foundBy (front.flatMap a.edgesFrom),
      y.Follows kind a (front ++ [s]) ((front ++ [s]).flatMap a.edgesFrom) := by
  rcases exists_of_turn?_eq_some hturn with ⟨s, waiting, hwaiting, rfl⟩
  have hqueue := h.states.queue
  rw [hwaiting] at hqueue
  refine ⟨s, ?_, ?_⟩
  · rw [ArrivalSet.mem_def, ← hqueue]
    exact List.mem_append_right _ List.mem_cons_self
  · rw [List.flatMap_append, List.flatMap_singleton]
    refine foldl_follow (fun edge hedge => (Automaton.mem_edgesFrom.1 hedge).2) ?_
    exact ⟨{ h.states with queue := by simpa using hqueue }, h.labels, h.transitions⟩

end Worklist.Follows

/-! ## The result -/

theorem toList_foundBy (states : List StateId) :
    (foundBy (states.flatMap a.edgesFrom)).toList = a.seenFrom states := by
  rw [foundBy, ArrivalSet.toList_ofList, List.map_flatMap]
  rfl

namespace Worklist

/-- The states have their turns in breadth-first order. -/
theorem follows_finish (x : Worklist) :
    ∀ {front : List StateId}, x.Follows kind a front (front.flatMap a.edgesFrom) →
      (∀ s ∈ front, a.Reachable s) →
        (x.finish kind a).Follows kind a a.reach a.reachableEdges := by
  -- By induction on the turns.
  induction x using finish.induct kind a with
  | case1 x hturn =>
      intro front h hreachable
      have hnone : x.states.waiting = [] := turn?_eq_none_iff.1 hturn
      -- All states that were found had their turn.
      have hseen : front = a.seenFrom front := by
        rw [← toList_foundBy, ← h.states.queue, hnone, List.append_nil]
      have horder : front = a.reach :=
        (Automaton.breadthFirst_of_firstSeen hseen hreachable).unique
          (Automaton.breadthFirst_reach a)
      have hfinish : x.finish kind a = x := by
        rw [finish, hturn]
      rw [hfinish]
      subst horder
      exact h
  | case2 x y hturn ih =>
      intro front h hreachable
      have hfinish : x.finish kind a = y.finish kind a := by
        rw [finish, hturn]
      rcases h.turn hturn with ⟨s, hs, hnext⟩
      rw [hfinish]
      refine ih hnext fun q hq => ?_
      rcases List.mem_append.1 hq with hold | hnew
      · exact hreachable q hold
      · rw [List.mem_singleton.1 hnew]
        rw [ArrivalSet.mem_def, toList_foundBy] at hs
        rcases Automaton.mem_seenFrom_iff.1 hs with rfl | ⟨r, hr, hleads⟩
        · exact .refl
        · exact (hreachable r hr).step hleads

theorem follows_ofAutomaton (kind : TokenKind) (a : Automaton) :
    (ofAutomaton kind a).Follows kind a a.reach a.reachableEdges :=
  follows_finish _ (.begin kind a) fun _ h => absurd h List.not_mem_nil

/-- After all turns the worklist holds the fields of the compiled table. -/
theorem table_ofAutomaton (kind : TokenKind) (a : Automaton) :
    (ofAutomaton kind a).table kind = compile kind a := by
  have h := follows_ofAutomaton kind a
  have hlabels : labelsOf a.reachableEdges = a.labels := rfl
  have hfound : ∀ s, s ∈ foundBy a.reachableEdges ↔ s ∈ a.reach := by
    intro s
    rw [ArrivalSet.mem_def, Automaton.reachableEdges, toList_foundBy,
      ← Automaton.reach_eq_seenFrom]
  have haccepting : ∀ s, s ∈ (ofAutomaton kind a).states.accepting ↔
      s ∈ (compile kind a).accepting := by
    intro s
    rw [h.states.mem_accepting, hfound]
    simp [compile]
  unfold table compile
  simp only [Table.mk.injEq, true_and]
  refine ⟨?_, ?_, ?_, ?_, ?_, ?_⟩
  · rw [h.labels.classes, hlabels]
  · exact h.transitions
  · apply Std.ExtTreeMap.ext_getElem?
    intro s
    rw [h.states.tokenOf, if_congr (haccepting s) rfl rfl]
    exact (tokenAt_compile_eq s).symm
  · exact Std.ExtTreeSet.ext_mem haccepting
  · apply Std.ExtTreeSet.ext_mem
    intro s
    rw [h.states.mem_legal, hfound]
    simp
  · rw [h.labels.size, hlabels]
    rfl

/-- The worklist tells what is told while the automaton is compiled. -/
theorem notices_ofAutomaton (kind : TokenKind) (a : Automaton) :
    (ofAutomaton kind a).labels.classes.notices = compileNotices a := by
  rw [(follows_ofAutomaton kind a).labels.classes]
  rfl

end Worklist
end Table
end BnfGrammar
