import BnfGrammar.Text.Quoted
import Mathlib.Data.List.Basic

/-!
# Reading quoted texts back

The escapes of a quoted text can be told apart from the left: a character that is no backslash
stands for itself, and what follows a backslash says how far the escape reaches. So a quoted text
shows which text was quoted, whatever its characters are, and it never contains a line feed.
-/

namespace BnfGrammar
namespace Text

variable {c : Char} {s t : String} {rest : List Char}

/-! ## Hexadecimal numbers -/

def hexDigits : List Char :=
  "0123456789abcdef".toList

/-- The number that a list of hexadecimal digits stands for. -/
def hexValue (digits : List Char) : Nat :=
  digits.foldl (fun value digit => 16 * value + hexDigits.idxOf digit) 0

theorem idxOf_digitChar : ∀ n < 16, hexDigits.idxOf n.digitChar = n := by
  decide

theorem hexValue_toDigits (n : Nat) : hexValue (Nat.toDigits 16 n) = n := by
  induction n using Nat.strongRecOn with
  | ind n ih =>
      rw [Nat.toDigits_eq_if (by decide)]
      by_cases hlt : n < 16
      · rw [if_pos hlt]
        simpa [hexValue] using idxOf_digitChar n hlt
      · -- The last digit is the remainder, and those before it stand for the quotient.
        have hfront : hexValue (Nat.toDigits 16 (n / 16)) = n / 16 := ih (n / 16) (by omega)
        have hlast : hexDigits.idxOf (n % 16).digitChar = n % 16 :=
          idxOf_digitChar (n % 16) (Nat.mod_lt n (by decide))
        rw [if_neg hlt, hexValue, List.foldl_append, ← hexValue, hfront, List.foldl_cons, hlast,
          List.foldl_nil]
        exact Nat.div_add_mod n 16

theorem mem_hexDigits_of_mem_toDigits {n : Nat} (h : c ∈ Nat.toDigits 16 n) : c ∈ hexDigits := by
  have hdigit : ∀ m < 16, m.digitChar ∈ hexDigits := by decide
  induction n using Nat.strongRecOn with
  | ind n ih =>
      rw [Nat.toDigits_eq_if (by decide)] at h
      by_cases hlt : n < 16
      · rw [if_pos hlt, List.mem_singleton] at h
        exact h ▸ hdigit n hlt
      · rw [if_neg hlt, List.mem_append, List.mem_singleton] at h
        rcases h with hfront | hlast
        · exact ih (n / 16) (by omega) hfront
        · exact hlast ▸ hdigit (n % 16) (Nat.mod_lt n (by decide))

/-! ## Reading one character -/

/-- The character that is named behind a backslash. -/
def named (c : Char) : Char :=
  if c = '0' then '\x00'
  else if c = 't' then '\t'
  else if c = 'r' then '\r'
  else if c = 'n' then '\n'
  else c

/-- The character of the code point between the braces, and what stands behind them. -/
def readCodePoint (text : List Char) : Char × List Char :=
  (Char.ofNat (hexValue ((text.drop 1).takeWhile (· ≠ '\x7d'))),
    (text.dropWhile (· ≠ '\x7d')).drop 1)

/-- The character that a quoted text goes on with, and what stands behind it. -/
def readCharacter : List Char → Option (Char × List Char)
  | [] => none
  | c :: rest =>
      if c = '\\' then
        match rest with
        | [] => none
        | name :: rest => some (if name = 'u' then readCodePoint rest else (named name, rest))
      else some (c, rest)

theorem readCodePoint_digits (c : Char) (rest : List Char) :
    readCodePoint ('\x7b' :: (Nat.toDigits 16 c.toNat ++ '\x7d' :: rest)) = (c, rest) := by
  have hdigits : ∀ digit ∈ Nat.toDigits 16 c.toNat, decide (digit ≠ '\x7d') = true := by
    intro digit hdigit
    have hbrace : '\x7d' ∉ hexDigits := by decide
    exact decide_eq_true fun he => hbrace (he ▸ mem_hexDigits_of_mem_toDigits hdigit)
  rw [readCodePoint, List.drop_succ_cons, List.drop_zero, List.takeWhile_append_of_pos hdigits,
    List.dropWhile_cons_of_pos (by decide), List.dropWhile_append_of_pos hdigits]
  simp [hexValue_toDigits]

/-- What is written for a character is read as that character. -/
theorem readCharacter_escapeBetween (c : Char) (rest : List Char) :
    readCharacter (escapeBetween '\x22' c ++ rest) = some (c, rest) := by
  unfold escapeBetween
  -- The branches are those of the escape: four named characters, the backslash and the
  -- delimiter, code points, and characters that stand for themselves.
  split
  · simp_all [readCharacter, named]
  split
  · simp_all [readCharacter, named]
  split
  · simp_all [readCharacter, named]
  split
  · simp_all [readCharacter, named]
  split
  · rename_i hself
    have hself : c = '\\' ∨ c = '\x22' := by simpa using hself
    rcases hself with rfl | rfl
    · rfl
    · rfl
  split
  · simp [codePointEscape, readCharacter, readCodePoint_digits]
  · rename_i hself _
    have hbackslash : c ≠ '\\' := by
      rintro rfl
      exact hself rfl
    simp [readCharacter, hbackslash]

/-! ## Quoted texts -/

theorem flatMap_escapeBetween_inj :
    ∀ {s t : List Char}, s.flatMap (escapeBetween '\x22') = t.flatMap (escapeBetween '\x22') →
      s = t := by
  intro s
  induction s with
  | nil =>
      intro t h
      cases t with
      | nil => rfl
      | cons d t =>
          have hread := readCharacter_escapeBetween d (t.flatMap (escapeBetween '\x22'))
          rw [← List.flatMap_cons, ← h] at hread
          cases hread
  | cons c s ih =>
      intro t h
      have hread := readCharacter_escapeBetween c (s.flatMap (escapeBetween '\x22'))
      rw [← List.flatMap_cons, h] at hread
      cases t with
      | nil => cases hread
      | cons d t =>
          rw [List.flatMap_cons, readCharacter_escapeBetween, Option.some.injEq,
            Prod.mk.injEq] at hread
          rcases hread with ⟨rfl, hrest⟩
          rw [ih hrest.symm]

/-- A quoted text shows which text was quoted. -/
theorem quoted_inj : quoted s = quoted t ↔ s = t := by
  constructor
  · intro h
    have hlist : s.toList.flatMap (escapeBetween '\x22') =
        t.toList.flatMap (escapeBetween '\x22') := by
      simpa [quoted] using congrArg String.toList h
    exact String.toList_injective (flatMap_escapeBetween_inj hlist)
  · rintro rfl
    rfl

theorem lineFeed_not_mem_escapeBetween (c : Char) : '\n' ∉ escapeBetween '\x22' c := by
  unfold escapeBetween
  split
  · decide
  split
  · decide
  split
  · decide
  split
  · decide
  split
  · rename_i hlineFeed _
    simp [eq_comm (a := '\n'), hlineFeed]
  split
  · have hdigits : '\n' ∉ Nat.toDigits 16 c.toNat := by
      intro h
      have hnone : '\n' ∉ hexDigits := by decide
      exact hnone (mem_hexDigits_of_mem_toDigits h)
    simp [codePointEscape, hdigits]
  · rename_i hlineFeed _ _
    simp [eq_comm (a := '\n'), hlineFeed]

/-- A quoted text stands on one line. -/
theorem lineFeed_not_mem_quoted (s : String) : '\n' ∉ (quoted s).toList := by
  simp [quoted, lineFeed_not_mem_escapeBetween]

end Text
end BnfGrammar
