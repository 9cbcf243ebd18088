import BnfGrammar.Automaton.Basic
import Std.Data.ExtTreeMap
import Std.Data.ExtTreeSet

/-!
# Tables

A step of a table looks up the class of the character first and then the transition of that class at
the present state. A table may also be read from a file, so nothing ties its fields together: a
state may be accepting and have no kind, and a transition may lead to a state that is not legal.
-/

namespace BnfGrammar

abbrev ClassId := UInt32

namespace Table

def byClassAndState : ClassId × StateId → ClassId × StateId → Ordering :=
  compareLex (compareOn Prod.fst) (compareOn Prod.snd)

instance : Std.TransCmp byClassAndState :=
  inferInstanceAs (Std.TransCmp (compareLex (compareOn Prod.fst) (compareOn Prod.snd)))

instance : Std.LawfulEqCmp byClassAndState where
  compare_self := Std.ReflCmp.compare_self
  eq_of_compare := by
    intro a b h
    obtain ⟨h₁, h₂⟩ := Ordering.then_eq_eq.1 h
    exact Prod.ext (Std.LawfulEqCmp.eq_of_compare h₁) (Std.LawfulEqCmp.eq_of_compare h₂)

end Table

structure Table where
  kind : TokenKind
  classOfChar : Std.ExtTreeMap Char ClassId
  /-- The state that a class of characters leads to from a state. -/
  transitions : Std.ExtTreeMap (ClassId × StateId) StateId Table.byClassAndState
  tokenOf : Std.ExtTreeMap StateId TokenKind
  accepting : Std.ExtTreeSet StateId
  legal : Std.ExtTreeSet StateId
  classCount : UInt32
  deriving DecidableEq

namespace Table

def classOf (t : Table) (c : Char) : Option ClassId :=
  t.classOfChar[c]?

/-- The state after reading `c` at a state, if there is one. -/
def step (t : Table) (state : StateId) (c : Char) : Option StateId := do
  t.transitions[(← t.classOf c, state)]?

def isAccepting (t : Table) (state : StateId) : Bool :=
  t.accepting.contains state

def tokenAt (t : Table) (state : StateId) : Option TokenKind :=
  t.tokenOf[state]?

/-- The state after reading a text from a state, if every step is defined. -/
def run (t : Table) (state : StateId) (text : List Char) : Option StateId :=
  text.foldlM t.step state

end Table
end BnfGrammar
