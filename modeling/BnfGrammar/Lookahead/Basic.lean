import BnfGrammar.Collections.ArrivalMap
import Std.Data.ExtTreeSet

/-!
# Lookaheads

Sets of lookaheads are listed with the end of the input first, the empty word second and the
terminals by name after them.
-/

namespace BnfGrammar

inductive Lookahead
  | finish
  /-- Nothing: the symbol or sequence in question may vanish. -/
  | epsilon
  | terminal (name : String)
  deriving DecidableEq, Repr

namespace Lookahead

/-- The mark for the end of the input. It is shown for `finish`, and it names the end of the input
in tables of FIRST sets. -/
def endMarker : String :=
  "$"

def text : Lookahead → String
  | .finish => endMarker
  | .epsilon => "EPSILON"
  | .terminal name => name

/-! ## Order -/

def rank : Lookahead → Nat
  | .finish => 0
  | .epsilon => 1
  | .terminal _ => 2

def name : Lookahead → String
  | .terminal name => name
  | _ => ""

def order : Lookahead → Lookahead → Ordering :=
  compareLex (compareOn rank) (compareOn name)

instance : Ord Lookahead :=
  ⟨order⟩

instance : Std.TransCmp order :=
  inferInstanceAs (Std.TransCmp (compareLex (compareOn rank) (compareOn name)))

theorem eq_of_rank_eq_of_name_eq {a b : Lookahead} (hr : a.rank = b.rank) (hn : a.name = b.name) :
    a = b := by
  cases a <;> cases b <;> simp_all [rank, name]

instance : Std.LawfulEqCmp order where
  compare_self := Std.ReflCmp.compare_self
  eq_of_compare := by
    intro a b h
    obtain ⟨h₁, h₂⟩ := Ordering.then_eq_eq.1 h
    exact eq_of_rank_eq_of_name_eq (Std.LawfulEqCmp.eq_of_compare h₁)
      (Std.LawfulEqCmp.eq_of_compare h₂)

instance : Std.TransOrd Lookahead :=
  inferInstanceAs (Std.TransCmp order)

instance : Std.LawfulEqOrd Lookahead :=
  inferInstanceAs (Std.LawfulEqCmp order)

end Lookahead

abbrev LookaheadSet := Std.ExtTreeSet Lookahead

abbrev SetTable := ArrivalMap String LookaheadSet

end BnfGrammar
