import BnfGrammar.Proofs.Collections
import BnfGrammar.Table.Compile
import Mathlib.Logic.Relation

/-!
# Paths of automata

What an automaton means as a graph, without any search: which states can be reached, along which
paths a word can be read, and which words are accepted. This file shows that the breadth-first visit
finds exactly the states that can be reached, so the edges and the labels it meets are those of
reachable states.

The visit stops after one step more than there are edges. A state that waits was put there by the
start or by an edge whose source has been visited, and a state is visited once, so the waiting
states and the edges of the states not yet visited are never more than the steps that are left.
-/

namespace BnfGrammar
namespace Automaton

variable {a : Automaton} {s q : StateId} {edge : Edge} {label : String} {steps : Nat}
  {waiting visited : List StateId}

/-! ## States, words and labels -/

/-- Some edge leads from one state to another. -/
def Leads (a : Automaton) (s q : StateId) : Prop :=
  ∃ edge ∈ a.edges, edge.source = s ∧ edge.target = q

/-- Some sequence of edges leads from the start to a state. -/
def Reachable (a : Automaton) : StateId → Prop :=
  Relation.ReflTransGen a.Leads start

/-- Some edge leads from one state to another on a character. -/
def Reads (a : Automaton) (s : StateId) (c : Char) (q : StateId) : Prop :=
  ∃ edge ∈ a.edges, edge.source = s ∧ edge.target = q ∧ c ∈ edge.label.toList

/-- Some sequence of edges leads from one state to another on the characters of a word. -/
inductive Path (a : Automaton) : StateId → List Char → StateId → Prop
  | nil (s : StateId) : Path a s [] s
  | cons {s next q : StateId} {c : Char} {word : List Char} :
      a.Reads s c next → Path a next word q → Path a s (c :: word) q

/-- Some path from the start to an accepting state reads a word. -/
def Accepts (a : Automaton) (word : List Char) : Prop :=
  ∃ q, a.Path start word q ∧ a.isAccepting q = true

/-- No two edges of a reachable state can be taken on the same character. An edge that was added
twice counts once. -/
def Deterministic (a : Automaton) : Prop :=
  ∀ s, a.Reachable s → ∀ edge ∈ a.edgesFrom s, ∀ other ∈ a.edgesFrom s, edge ≠ other →
    ∀ c ∈ edge.label.toList, c ∉ other.label.toList

/-- Different labels on edges that leave reachable states have no character in common. -/
def LabelsApart (a : Automaton) : Prop :=
  ∀ edge ∈ a.edges, ∀ other ∈ a.edges, a.Reachable edge.source → a.Reachable other.source →
    edge.label ≠ other.label → ∀ c ∈ edge.label.toList, c ∉ other.label.toList

theorem Reachable.step (h : a.Reachable s) (hleads : a.Leads s q) : a.Reachable q :=
  Relation.ReflTransGen.tail h hleads

theorem Reads.leads {c : Char} (h : a.Reads s c q) : a.Leads s q := by
  rcases h with ⟨edge, hedge, hsource, htarget, _⟩
  exact ⟨edge, hedge, hsource, htarget⟩

theorem mem_neighbors_iff : q ∈ a.neighbors s ↔ a.Leads s q := by
  simp [neighbors, Leads, mem_edgesFrom, and_assoc]

/-! ## The visit -/

/-- How many edges leave states that were not visited. -/
def unvisitedEdges (a : Automaton) (visited : List StateId) : Nat :=
  a.edges.countP fun edge => edge.source ∉ visited

/-- Visiting a state takes its edges from those of unvisited states. -/
theorem length_neighbors_add_unvisitedEdges (h : s ∉ visited) :
    (a.neighbors s).length + a.unvisitedEdges (visited ++ [s]) = a.unvisitedEdges visited := by
  unfold neighbors edgesFrom unvisitedEdges
  induction a.edges with
  | nil => rfl
  | cons edge edges ih =>
      by_cases hsource : edge.source = s
      · subst hsource
        simp [h] at ih ⊢
        omega
      · by_cases hvisited : edge.source ∈ visited
        · simpa [hsource, hvisited] using ih
        · simp [hsource, hvisited] at ih ⊢
          omega

/-- A state is only visited if some edges lead to it from a state that waits. -/
theorem reachable_of_mem_visit :
    ∀ (steps : Nat) (waiting visited : List StateId), s ∈ a.visit steps waiting visited →
      s ∈ visited ∨ ∃ w ∈ waiting, Relation.ReflTransGen a.Leads w s := by
  intro steps
  induction steps with
  | zero => exact fun _ _ h => Or.inl h
  | succ steps ih =>
      intro waiting visited h
      cases waiting with
      | nil => exact Or.inl h
      | cons state waiting =>
          rw [visit] at h
          by_cases hstate : state ∈ visited
          · rw [if_pos hstate] at h
            rcases ih waiting visited h with hold | ⟨w, hw, hpath⟩
            · exact Or.inl hold
            · exact Or.inr ⟨w, List.mem_cons_of_mem state hw, hpath⟩
          · rw [if_neg hstate] at h
            rcases ih _ _ h with hvisited | ⟨w, hw, hpath⟩
            · rcases List.mem_append.1 hvisited with hold | hnew
              · exact Or.inl hold
              · rw [List.mem_singleton.1 hnew]
                exact Or.inr ⟨state, List.mem_cons_self, .refl⟩
            · rcases List.mem_append.1 hw with hold | hnew
              · exact Or.inr ⟨w, List.mem_cons_of_mem state hold, hpath⟩
              · exact Or.inr ⟨state, List.mem_cons_self, hpath.head (mem_neighbors_iff.1 hnew)⟩

/-- Every edge of a visited state leads to a state that was visited or waits. -/
def Frontier (a : Automaton) (waiting visited : List StateId) : Prop :=
  ∀ s ∈ visited, ∀ q, a.Leads s q → q ∈ visited ∨ q ∈ waiting

theorem Frontier.skip (h : a.Frontier (s :: waiting) visited) (hs : s ∈ visited) :
    a.Frontier waiting visited := by
  intro r hr q hleads
  rcases h r hr q hleads with hvisited | hwaiting
  · exact Or.inl hvisited
  · rcases List.mem_cons.1 hwaiting with rfl | hwaiting
    · exact Or.inl hs
    · exact Or.inr hwaiting

theorem Frontier.visit (h : a.Frontier (s :: waiting) visited) :
    a.Frontier (waiting ++ a.neighbors s) (visited ++ [s]) := by
  intro r hr q hleads
  rcases List.mem_append.1 hr with hold | hnew
  · rcases h r hold q hleads with hvisited | hwaiting
    · exact Or.inl (List.mem_append_left _ hvisited)
    · rcases List.mem_cons.1 hwaiting with rfl | hwaiting
      · exact Or.inl (List.mem_append_right _ (List.mem_singleton_self _))
      · exact Or.inr (List.mem_append_left _ hwaiting)
  · obtain rfl := List.mem_singleton.1 hnew
    exact Or.inr (List.mem_append_right _ (mem_neighbors_iff.2 hleads))

/-- With a step for each waiting state and each edge of an unvisited state, the visit takes in what
was visited and what waits, and ends in a set of states that no edge leaves. -/
theorem visit_closed :
    ∀ (steps : Nat) (waiting visited : List StateId),
      waiting.length + a.unvisitedEdges visited ≤ steps → a.Frontier waiting visited →
      (∀ s, s ∈ visited ∨ s ∈ waiting → s ∈ a.visit steps waiting visited) ∧
        a.Frontier [] (a.visit steps waiting visited) := by
  -- By induction on the steps, with the frontier as the invariant.
  intro steps
  induction steps with
  | zero =>
      intro waiting visited hsteps hfrontier
      obtain rfl : waiting = [] := List.eq_nil_of_length_eq_zero (by omega)
      exact ⟨fun s hs => hs.resolve_right List.not_mem_nil, hfrontier⟩
  | succ steps ih =>
      intro waiting visited hsteps hfrontier
      cases waiting with
      | nil => exact ⟨fun s hs => hs.resolve_right List.not_mem_nil, hfrontier⟩
      | cons state waiting =>
          rw [List.length_cons] at hsteps
          by_cases hstate : state ∈ visited
          · rw [Automaton.visit, if_pos hstate]
            rcases ih waiting visited (by omega) (hfrontier.skip hstate) with ⟨hkept, hclosed⟩
            refine ⟨?_, hclosed⟩
            rintro s (hs | hs)
            · exact hkept s (Or.inl hs)
            · rcases List.mem_cons.1 hs with rfl | hs
              · exact hkept s (Or.inl hstate)
              · exact hkept s (Or.inr hs)
          · rw [Automaton.visit, if_neg hstate]
            have hfewer := length_neighbors_add_unvisitedEdges (a := a) hstate
            have hbound : (waiting ++ a.neighbors state).length +
                a.unvisitedEdges (visited ++ [state]) ≤ steps := by
              rw [List.length_append]
              omega
            rcases ih _ _ hbound hfrontier.visit with ⟨hkept, hclosed⟩
            refine ⟨?_, hclosed⟩
            rintro s (hs | hs)
            · exact hkept s (Or.inl (List.mem_append_left _ hs))
            · rcases List.mem_cons.1 hs with rfl | hs
              · exact hkept s (Or.inl (List.mem_append_right _ (List.mem_singleton_self _)))
              · exact hkept s (Or.inr (List.mem_append_left _ hs))

/-- The visit finds exactly the states that can be reached. -/
theorem mem_reach_iff : s ∈ a.reach ↔ a.Reachable s := by
  constructor
  · intro h
    rcases reachable_of_mem_visit _ _ _ h with hnone | ⟨w, hw, hpath⟩
    · cases hnone
    · rw [List.mem_singleton.1 hw] at hpath
      exact hpath
  · intro h
    have hbound : [start].length + a.unvisitedEdges [] ≤ a.edges.length + 1 := by
      have hall : a.unvisitedEdges [] ≤ a.edges.length := List.countP_le_length
      simp only [List.length_singleton]
      omega
    have hempty : a.Frontier [start] [] := fun r hr => absurd hr List.not_mem_nil
    rcases visit_closed _ _ _ hbound hempty with ⟨hkept, hclosed⟩
    -- By induction on the edges that lead to the state.
    induction h with
    | refl => exact hkept start (Or.inr List.mem_cons_self)
    | tail _ hleads ih => exact (hclosed _ ih _ hleads).resolve_right List.not_mem_nil

/-! ## Edges and labels of reachable states -/

theorem mem_reachableEdges_iff :
    edge ∈ a.reachableEdges ↔ edge ∈ a.edges ∧ a.Reachable edge.source := by
  simp only [reachableEdges, List.mem_flatMap, mem_reach_iff, mem_edgesFrom]
  constructor
  · rintro ⟨s, hs, hedge, rfl⟩
    exact ⟨hedge, hs⟩
  · rintro ⟨hedge, hs⟩
    exact ⟨edge.source, hs, hedge, rfl⟩

theorem mem_labels_iff :
    label ∈ a.labels.toList ↔ ∃ edge ∈ a.edges, a.Reachable edge.source ∧ edge.label = label := by
  have hmem : label ∈ a.labels ↔ label ∈ a.reachableEdges.map Edge.label := ArrivalSet.mem_ofList
  rw [← ArrivalSet.mem_def, hmem]
  simp only [List.mem_map, mem_reachableEdges_iff, and_assoc]

/-! ## Checks -/

/-- Whether the labels of two edges have no character in common. -/
def isApart (edge other : Edge) : Bool :=
  edge.label.toList.all fun c => !other.label.toList.contains c

theorem isApart_iff {other : Edge} :
    isApart edge other = true ↔ ∀ c ∈ edge.label.toList, c ∉ other.label.toList := by
  simp [isApart]

-- The checks run through lists, never through all states or all characters.
instance (a : Automaton) (s : StateId) : Decidable (a.Reachable s) :=
  decidable_of_iff (s ∈ a.reach) mem_reach_iff

instance (a : Automaton) : Decidable a.Deterministic :=
  decidable_of_iff ((a.reach.all fun s => (a.edgesFrom s).all fun edge =>
      (a.edgesFrom s).all fun other => edge = other || isApart edge other) = true) (by
    simp only [List.all_eq_true, Bool.or_eq_true, decide_eq_true_eq, isApart_iff, mem_reach_iff,
      Deterministic, or_iff_not_imp_left])

instance (a : Automaton) : Decidable a.LabelsApart :=
  decidable_of_iff ((a.reachableEdges.all fun edge => a.reachableEdges.all fun other =>
      edge.label = other.label || isApart edge other) = true) (by
    simp only [List.all_eq_true, Bool.or_eq_true, decide_eq_true_eq, isApart_iff,
      mem_reachableEdges_iff, LabelsApart, or_iff_not_imp_left]
    exact ⟨fun h edge hedge other hother hs hs' => h edge ⟨hedge, hs⟩ other ⟨hother, hs'⟩,
      fun h edge hedge other hother => h edge hedge.1 other hother.1 hedge.2 hother.2⟩)

/-! ## Paths -/

theorem path_nil_iff : a.Path s [] q ↔ s = q := by
  constructor
  · intro h
    cases h
    rfl
  · rintro rfl
    exact .nil s

theorem path_cons_iff {c : Char} {word : List Char} :
    a.Path s (c :: word) q ↔ ∃ next, a.Reads s c next ∧ a.Path next word q := by
  constructor
  · intro h
    cases h with
    | cons hreads hpath => exact ⟨_, hreads, hpath⟩
  · rintro ⟨next, hreads, hpath⟩
    exact .cons hreads hpath

theorem Path.reachable {word : List Char} (h : a.Path s word q) (hs : a.Reachable s) :
    a.Reachable q := by
  induction h with
  | nil s => exact hs
  | cons hreads _ ih => exact ih (hs.step hreads.leads)

end Automaton
end BnfGrammar
