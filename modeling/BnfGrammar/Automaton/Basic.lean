import BnfGrammar.Token
import Std.Data.ExtTreeMap

/-!
# Automata

The automaton of one kind of word is a small directed graph with labelled edges. Edges keep the
order in which they were added, since it decides in which order labels are met later. Nothing
requires that the labels of a state be disjoint.
-/

namespace BnfGrammar

abbrev StateId := UInt32

inductive StateTag
  /-- A word may pass through the state but not end there. -/
  | passing
  /-- A word may end at the state. -/
  | accepting
  deriving DecidableEq, Repr

/-- A step from `source` to `target` on any character of `label`. -/
structure Edge where
  source : StateId
  target : StateId
  label : String
  deriving DecidableEq, Repr

structure Automaton where
  tags : Std.ExtTreeMap StateId StateTag := ∅
  edges : List Edge := []

namespace Automaton

def start : StateId :=
  0

def empty : Automaton :=
  {}

/-! ## Building -/

def addState (a : Automaton) (state : StateId) (tag : StateTag) : Automaton :=
  { a with tags := a.tags.insert state tag }

def addEdge (a : Automaton) (source target : StateId) (label : String) : Automaton :=
  { a with edges := a.edges ++ [⟨source, target, label⟩] }

/-! ## Reading -/

def tag? (a : Automaton) (state : StateId) : Option StateTag :=
  a.tags[state]?

def isAccepting (a : Automaton) (state : StateId) : Bool :=
  a.tag? state = some .accepting

def edgesFrom (a : Automaton) (state : StateId) : List Edge :=
  a.edges.filter fun edge => edge.source = state

def neighbors (a : Automaton) (state : StateId) : List StateId :=
  (a.edgesFrom state).map Edge.target

def stateCount (a : Automaton) : Nat :=
  a.tags.size

theorem mem_edgesFrom {a : Automaton} {state : StateId} {edge : Edge} :
    edge ∈ a.edgesFrom state ↔ edge ∈ a.edges ∧ edge.source = state := by
  simp [edgesFrom]

theorem edgesFrom_addEdge (a : Automaton) (source target : StateId) (label : String)
    (state : StateId) :
    (a.addEdge source target label).edgesFrom state =
      a.edgesFrom state ++ if source = state then [⟨source, target, label⟩] else [] := by
  by_cases h : source = state <;> simp [edgesFrom, addEdge, h]

end Automaton
end BnfGrammar
