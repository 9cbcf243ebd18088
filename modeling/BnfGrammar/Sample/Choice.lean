/-!
# Sources of choices

A chooser tosses coins and picks from lists by a state of its own. Nothing is assumed about its
answers beyond their range. One chooser draws on a sequence of 64-bit words: a coin takes one whole
word, and a pick multiplies the upper half of a word by the number of items and takes the upper half
of the product. If rounding may matter, a second word settles the carry.
-/

namespace BnfGrammar

structure Chooser (σ : Type) where
  /-- Tosses a coin that shows heads in `weight` of 2⁶⁴ cases. -/
  coin (weight : UInt64) : σ → Bool × σ
  /-- Picks an index into a list of `last + 1` items. -/
  pick (last : Nat) : σ → Fin (last + 1) × σ

/-! ## Sequences of words -/

inductive WordSource
  /-- The words of a list in turn, starting over at its end; `rest` is left of this turn. -/
  | circle (words rest : List UInt64)
  | mixed (counter : UInt64)

namespace WordSource

def mix (x : UInt64) : UInt64 :=
  let x := (x ^^^ (x >>> 30)) * 0xBF58476D1CE4E5B9
  let x := (x ^^^ (x >>> 27)) * 0x94D049BB133111EB
  x ^^^ (x >>> 31)

/-- The next word. An empty circle gives zeros. -/
def next : WordSource → UInt64 × WordSource
  | .circle words (word :: rest) => (word, .circle words rest)
  | .circle words [] => (words.headD 0, .circle words words.tail)
  | .mixed counter =>
      let counter := counter + 0x9E3779B97F4A7C15
      (mix counter, .mixed counter)

def nextHalf (source : WordSource) : Nat × WordSource :=
  let (word, source) := source.next
  ((word >>> 32).toNat, source)

theorem nextHalf_lt (source : WordSource) : source.nextHalf.1 < 4294967296 := by
  have h := source.next.1.toNat_lt
  simp only [nextHalf, UInt64.toNat_shiftRight]
  have : (32 : UInt64).toNat % 64 = 32 := rfl
  rw [this, Nat.shiftRight_eq_div_pow]
  omega

def pickValue (last : Nat) (source : WordSource) : Nat × WordSource :=
  let items := last + 1
  let (half, source) := source.nextHalf
  let product := half * items
  let upper := product / 4294967296
  let lower := product % 4294967296
  if 4294967296 < lower + items then
    let (half, source) := source.nextHalf
    let carry := (lower + half * items / 4294967296) / 4294967296
    (upper + carry, source)
  else (upper, source)

theorem pickValue_lt (last : Nat) (source : WordSource) :
    (source.pickValue last).1 < last + 1 := by
  have h₁ := Nat.mul_le_mul_right (last + 1) (Nat.le_of_lt_succ source.nextHalf_lt)
  have h₂ := Nat.mul_le_mul_right (last + 1) (Nat.le_of_lt_succ source.nextHalf.2.nextHalf_lt)
  simp only [pickValue]
  split
  · simp only
    omega
  · simp only
    omega

def chooser : Chooser WordSource where
  coin weight source :=
    let (word, source) := source.next
    (word < weight, source)
  pick last source :=
    let picked := source.pickValue last
    (⟨picked.1, pickValue_lt last source⟩, picked.2)

end WordSource
end BnfGrammar
