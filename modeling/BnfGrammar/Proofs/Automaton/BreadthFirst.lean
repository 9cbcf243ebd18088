import BnfGrammar.Proofs.Automaton.Paths
import Mathlib.Data.List.Nodup

/-!
# Breadth-first order

The visit lists the states that can be reached in the order in which they are first seen, if the
edges of the states on the list are followed one state after the other. A state that needs fewer
edges then comes before one that needs more. Only one list of states is ordered like that, so the
order in which labels are met does not depend on how the states are searched.
-/

namespace BnfGrammar
namespace Automaton

variable {a : Automaton} {s q : StateId} {n : Nat} {states others : List StateId}

/-! ## Distances -/

/-- Some sequence of `n` edges leads from the start to a state. -/
inductive ReachableIn (a : Automaton) : Nat → StateId → Prop
  | start : ReachableIn a 0 start
  | step {n : Nat} {s q : StateId} : ReachableIn a n s → a.Leads s q → ReachableIn a (n + 1) q

/-! ## The order -/

/-- The states that are seen from the start, and from some states in turn, in the order in which
their edges lead to them for the first time. -/
def seenFrom (a : Automaton) (states : List StateId) : List StateId :=
  (start :: states.flatMap a.neighbors).eraseDups

/-- A list of all states that can be reached, in breadth-first order. -/
structure BreadthFirst (a : Automaton) (states : List StateId) : Prop where
  mem_iff : ∀ s, s ∈ states ↔ a.Reachable s
  nodup : states.Nodup
  /-- Earlier states do not need more edges than later ones. -/
  nearer : states.Pairwise fun s q => ∀ n, a.ReachableIn n q → ∃ m ≤ n, a.ReachableIn m s
  /-- The states come in the order in which the list itself sees them. -/
  firstSeen : states = a.seenFrom states

theorem mem_seenFrom_iff :
    q ∈ a.seenFrom states ↔ q = start ∨ ∃ s ∈ states, a.Leads s q := by
  simp [seenFrom, mem_neighbors_iff]

/-- What is seen from the front of a list comes first in what is seen from the whole list. -/
theorem seenFrom_append (front behind : List StateId) :
    ∃ later, a.seenFrom (front ++ behind) = a.seenFrom front ++ later := by
  rw [seenFrom, List.flatMap_append, ← List.cons_append, List.eraseDups_append]
  exact ⟨_, rfl⟩

/-! ## The visit -/

/-- The visit adds the states that wait and those that its own additions lead to. -/
theorem exists_visit_eq :
    ∀ (steps : Nat) (waiting visited : List StateId),
      waiting.length + a.unvisitedEdges visited ≤ steps → visited.Nodup →
      ∃ later, a.visit steps waiting visited = visited ++ later ∧
        visited ++ later = (visited ++ (waiting ++ later.flatMap a.neighbors)).eraseDups := by
  intro steps
  induction steps with
  | zero =>
      intro waiting visited hsteps hnodup
      obtain rfl : waiting = [] := List.eq_nil_of_length_eq_zero (by omega)
      exact ⟨[], by simp [visit], by simp [eraseDups_of_nodup hnodup]⟩
  | succ steps ih =>
      intro waiting visited hsteps hnodup
      cases waiting with
      | nil => exact ⟨[], by simp [visit], by simp [eraseDups_of_nodup hnodup]⟩
      | cons state waiting =>
          rw [List.length_cons] at hsteps
          by_cases hstate : state ∈ visited
          · rcases ih waiting visited (by omega) hnodup with ⟨later, hvisit, hlater⟩
            refine ⟨later, by rw [visit, if_pos hstate, hvisit], ?_⟩
            -- The state is a repetition of a visited one.
            rw [hlater, List.eraseDups_append, List.eraseDups_append, List.cons_append,
              List.cons_removeAll]
            simp [hstate]
          · have hfewer := length_neighbors_add_unvisitedEdges (a := a) hstate
            have hbound : (waiting ++ a.neighbors state).length +
                a.unvisitedEdges (visited ++ [state]) ≤ steps := by
              rw [List.length_append]
              omega
            have hmore : (visited ++ [state]).Nodup := by
              simpa using List.Nodup.concat hstate hnodup
            rcases ih _ _ hbound hmore with ⟨later, hvisit, hlater⟩
            refine ⟨state :: later, ?_, ?_⟩
            · rw [visit, if_neg hstate, hvisit, List.append_assoc, List.singleton_append]
            · simpa using hlater

theorem reach_eq_seenFrom (a : Automaton) : a.reach = a.seenFrom a.reach := by
  have hbound : [start].length + a.unvisitedEdges [] ≤ a.edges.length + 1 := by
    have hall : a.unvisitedEdges [] ≤ a.edges.length := List.countP_le_length
    simp only [List.length_singleton]
    omega
  rcases exists_visit_eq _ _ _ hbound List.nodup_nil with ⟨later, hvisit, hlater⟩
  have hreach : a.reach = later := hvisit
  rw [hreach]
  exact hlater

/-! ## Distances along the order -/

/-- What stands in front of a state that some edges lead to needs no more edges. -/
theorem reachableIn_of_front (hstates : states = a.seenFrom states) (h : a.ReachableIn n q) :
    ∃ front behind, states = front ++ q :: behind ∧
      ∀ s ∈ front, ∃ m ≤ n, a.ReachableIn m s := by
  -- By induction on the number of edges.
  induction h with
  | start =>
      refine ⟨[], (states.flatMap a.neighbors |>.filter fun b => !b == start).eraseDups, ?_, ?_⟩
      · rw [List.nil_append, ← List.eraseDups_cons]
        exact hstates
      · exact fun s hs => absurd hs List.not_mem_nil
  | @step n p q hp hleads ih =>
      rcases ih with ⟨front, behind, hsplit, hfront⟩
      -- The state is seen from the front and its predecessor, as is all that stands before it.
      rcases seenFrom_append (a := a) (front ++ [p]) behind with ⟨later, hlater⟩
      have hq : q ∈ a.seenFrom (front ++ [p]) :=
        mem_seenFrom_iff.2 (Or.inr ⟨p, by simp, hleads⟩)
      rcases List.append_of_mem hq with ⟨before, after, hseen⟩
      refine ⟨before, after ++ later, ?_, ?_⟩
      · rw [hstates, hsplit, ← List.singleton_append, ← List.append_assoc, hlater, hseen]
        simp
      · intro s hs
        have hs : s ∈ a.seenFrom (front ++ [p]) := by
          rw [hseen]
          exact List.mem_append_left _ hs
        rcases mem_seenFrom_iff.1 hs with rfl | ⟨r, hr, hleads'⟩
        · exact ⟨0, Nat.zero_le _, .start⟩
        · rcases List.mem_append.1 hr with hr | hr
          · rcases hfront r hr with ⟨m, hm, hreach⟩
            exact ⟨m + 1, Nat.succ_le_succ hm, hreach.step hleads'⟩
          · obtain rfl := List.mem_singleton.1 hr
            exact ⟨n + 1, Nat.le_refl _, hp.step hleads'⟩

theorem pairwise_nearer (hstates : states = a.seenFrom states) :
    states.Pairwise fun s q => ∀ n, a.ReachableIn n q → ∃ m ≤ n, a.ReachableIn m s := by
  refine List.pairwise_iff_forall_sublist.2 fun {s q} hsublist n hq => ?_
  rcases reachableIn_of_front hstates hq with ⟨front, behind, hsplit, hfront⟩
  have hnodup : (front ++ q :: behind).Nodup := by
    rw [← hsplit, hstates]
    exact nodup_eraseDups _
  rw [hsplit] at hsublist
  rcases List.sublist_append_iff.1 hsublist with ⟨early, late, hpair, hearly, hlate⟩
  cases early with
  | nil =>
      -- The later of the two states would stand behind itself.
      rw [List.nil_append] at hpair
      have hagain : [q].Sublist behind := by
        simpa [← hpair] using hlate.tail
      have hbehind : q ∉ behind := (List.nodup_cons.1 (List.nodup_append.1 hnodup).2.1).1
      exact absurd (List.singleton_sublist.1 hagain) hbehind
  | cons r early =>
      obtain rfl : s = r := List.head_eq_of_cons_eq hpair
      exact hfront s (hearly.subset List.mem_cons_self)

/-- A list from which nothing new is seen has all states that can be reached. -/
theorem mem_of_seenFrom_subset (h : a.seenFrom states ⊆ states) (hs : a.Reachable s) :
    s ∈ states := by
  induction hs with
  | refl => exact h (mem_seenFrom_iff.2 (Or.inl rfl))
  | tail _ hleads ih => exact h (mem_seenFrom_iff.2 (Or.inr ⟨_, ih, hleads⟩))

/-- A list of reachable states from which nothing new is seen is in breadth-first order. -/
theorem breadthFirst_of_firstSeen (hstates : states = a.seenFrom states)
    (hreachable : ∀ s ∈ states, a.Reachable s) : a.BreadthFirst states where
  mem_iff s := by
    refine ⟨hreachable s, mem_of_seenFrom_subset ?_⟩
    rw [← hstates]
    exact List.Subset.refl states
  nodup := by
    rw [hstates]
    exact nodup_eraseDups _
  nearer := pairwise_nearer hstates
  firstSeen := hstates

/-- The visit goes through the states in breadth-first order. -/
theorem breadthFirst_reach (a : Automaton) : a.BreadthFirst a.reach :=
  breadthFirst_of_firstSeen (reach_eq_seenFrom a) fun _ => mem_reach_iff.1

/-! ## Uniqueness -/

theorem BreadthFirst.seenFrom_isPrefix (h : a.BreadthFirst states) {front : List StateId}
    (hfront : front <+: states) : a.seenFrom front <+: states := by
  rcases hfront with ⟨behind, rfl⟩
  rcases seenFrom_append (a := a) front behind with ⟨later, hlater⟩
  exact ⟨later, hlater.symm.trans h.firstSeen.symm⟩

theorem BreadthFirst.isPrefix (h : a.BreadthFirst states) (h' : a.BreadthFirst others) :
    ∀ front, front <+: states → front <+: others := by
  intro front
  -- By induction on the front: the states on it decide which state is seen next.
  induction front using List.reverseRecOn with
  | nil => exact fun _ => List.nil_prefix
  | append_singleton front last ih =>
      intro hlonger
      have hfront : front <+: states := (List.prefix_append front [last]).trans hlonger
      have hseen := h.seenFrom_isPrefix hfront
      have hmore : (front ++ [last]).length ≤ (a.seenFrom front).length := by
        by_contra hshort
        rw [List.length_append, List.length_singleton, Nat.not_le, Nat.lt_succ_iff] at hshort
        have hnone : a.seenFrom front <+: front :=
          List.prefix_of_prefix_length_le hseen hfront hshort
        have hlast : last ∈ front := mem_of_seenFrom_subset hnone.subset
          ((h.mem_iff last).1 (hlonger.subset (List.mem_append_right _ List.mem_cons_self)))
        have hnodup : (front ++ [last]).Nodup := h.nodup.sublist hlonger.sublist
        exact (List.nodup_append.1 hnodup).2.2 last hlast last List.mem_cons_self rfl
      exact (List.prefix_of_prefix_length_le hlonger hseen hmore).trans
        (h'.seenFrom_isPrefix (ih hfront))

/-- All states can be found in only one breadth-first order. -/
theorem BreadthFirst.unique (h : a.BreadthFirst states) (h' : a.BreadthFirst others) :
    states = others :=
  (h.isPrefix h' states (List.prefix_refl _)).eq_of_length_le
    (h'.isPrefix h others (List.prefix_refl _)).length_le

end Automaton
end BnfGrammar
