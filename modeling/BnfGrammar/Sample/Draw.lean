import BnfGrammar.Sample.Choice
import BnfGrammar.Sample.Spaced

/-!
# Drawing sample grammars

A sample grammar of `n` sets has the left-hand sides `N0`, `N1`, … in this order. Each set has one
to three alternatives, and an alternative is the keyword or one to four names, drawn from the
left-hand sides and the terminals `t0`, `t1`, …, of which there are three more than left-hand
sides. Gaps are drawn too; only between two names is a gap always there.
-/

namespace BnfGrammar
namespace Sample

/-! ## Stock -/

def gaps : List String :=
  [" ", "  ", "\t", "\n", "\r\n", " \n\t"]

def keywords : List String :=
  ["EPSILON", "epsilon", "Epsilon", "ePsIlOn"]

def half : UInt64 :=
  9223372036854775808

def fifteenPercent : UInt64 :=
  2767011611056432640

def fortyPercent : UInt64 :=
  7378697629483821056

/-! ## Drawing -/

section

variable {σ : Type} (choose : Chooser σ)

def pickFrom (items : List String) (h : items ≠ []) : StateM σ String := do
  let i ← choose.pick (items.length - 1)
  have : i.val < items.length := by
    have := List.length_pos_iff.2 h
    omega
  return items[i.val]

def gap : StateM σ String :=
  pickFrom choose gaps (by decide)

def optionalGap : StateM σ String := do
  if ← choose.coin half then gap choose else return ""

/-- Draws a name for a grammar whose last left-hand side has the number `last`. -/
def name (last : Nat) : StateM σ String := do
  if ← choose.coin fortyPercent then
    let i ← choose.pick last
    return s!"N{i.val}"
  else
    let i ← choose.pick (last + 3)
    return s!"t{i.val}"

def furtherNames (last : Nat) : Nat → StateM σ (List (String × String))
  | 0 => return []
  | n + 1 => do
      let gap ← gap choose
      let name ← name choose last
      return (gap, name) :: (← furtherNames last n)

def alternative (last : Nat) : StateM σ Spaced.Alternative := do
  let gap ← optionalGap choose
  if ← choose.coin fifteenPercent then
    return .vanishing gap (← pickFrom choose keywords (by decide))
  else
    let further ← choose.pick 3
    let name ← name choose last
    return .names ((gap, name) :: (← furtherNames choose last further))

def furtherAlternatives (last : Nat) : Nat → StateM σ (List (String × Spaced.Alternative))
  | 0 => return []
  | n + 1 => do
      let gap ← optionalGap choose
      let alternative ← alternative choose last
      return (gap, alternative) :: (← furtherAlternatives last n)

def productionSet (last number : Nat) : StateM σ Spaced.ProductionSet := do
  let gap ← optionalGap choose
  let colonGap ← optionalGap choose
  let further ← choose.pick 2
  let first ← alternative choose last
  let others ← furtherAlternatives choose last further
  let stopGap ← optionalGap choose
  return {
    gap := gap
    lhs := s!"N{number}"
    colonGap := colonGap
    first := first
    others := others
    stopGap := stopGap }

/-- Draws a grammar of `n` sets, but of at least one. -/
def grammar (n : Nat) : StateM σ Spaced.Grammar := do
  let sets ← (List.range (n - 1 + 1)).mapM (productionSet choose (n - 1))
  let lastGap ← optionalGap choose
  return ⟨sets, lastGap⟩

end

def text {σ : Type} (choose : Chooser σ) (n : Nat) (state : σ) : String :=
  (grammar choose n state).1.text

end Sample
end BnfGrammar
