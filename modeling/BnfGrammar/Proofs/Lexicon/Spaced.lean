import BnfGrammar.Proofs.Lexicon.Standard
import BnfGrammar.Proofs.SyntaxTree.Reads
import Mathlib.Data.List.Chain

/-!
# Words with blanks between them

Writing words down is the way back from tokens to texts. Blanks may stand anywhere between words,
and they have to stand where two words would otherwise be read as one. Of the words of the grammar
notation only a name runs on, into a name or into the keyword for the empty alternative. This file
shows that a text that is written this way is read as its words.
-/

namespace BnfGrammar

open Outline (Word)
open Scanner (lineAfter)

/-! ## Spelling -/

/-- A name that is read as one word. -/
structure IsName (name : String) : Prop where
  ne_empty : name ≠ ""
  letters : ∀ c ∈ name.toList, c.isAlphanum = true
  not_epsilon : spellsEpsilon (name.toList.take 7) = false

instance (name : String) : Decidable (IsName name) :=
  decidable_of_iff (name ≠ "" ∧ name.toList.all Char.isAlphanum = true ∧
      spellsEpsilon (name.toList.take 7) = false)
    ⟨fun h => ⟨h.1, List.all_eq_true.1 h.2.1, h.2.2⟩,
      fun h => ⟨h.ne_empty, List.all_eq_true.2 h.letters, h.not_epsilon⟩⟩

/-- The text of a word is one that its kind can have. -/
inductive Spelled : Word → Prop
  | sign {kind : TokenKind} {c : Char} : signKind? c = some kind →
      Spelled (kind, String.singleton c)
  | epsilon {text : String} : spellsEpsilon text.toList = true → Spelled (.epsilon, text)
  | name {text : String} : IsName text → Spelled (.symbol, text)

/-! ## Pieces -/

/-- A word and the blanks in front of it. -/
structure Piece where
  gap : List Char
  word : Word

/-- Blanks stand between two words that would otherwise be read as one. -/
def Piece.Apart (piece next : Piece) : Prop :=
  piece.word.1 = .symbol → next.word.1 = .symbol ∨ next.word.1 = .epsilon → next.gap ≠ []

/-- The characters of some pieces. -/
def Piece.texts (pieces : List Piece) : List Char :=
  pieces.flatMap fun piece => piece.gap ++ piece.word.2.toList

namespace Lexicon

variable {w : Word} {rest gap : List Char} {piece : Piece} {pieces : List Piece}

theorem head?_of_spelled (h : Spelled w) : ∀ c ∈ w.2.toList.head?, isBlank c = false := by
  cases h with
  | sign hsign => simpa using isBlank_eq_false_of_sign hsign
  | epsilon hspells =>
      exact head?_isBlank_of_isAlphanum (Automaton.isAlphanum_of_accepts_epsilon
        (Automaton.accepts_epsilon_iff.2 hspells))
  | name hname => exact head?_isBlank_of_isAlphanum hname.letters

/-- A word is matched in front of everything that it does not run on into. -/
theorem isMatch_of_spelled (h : Spelled w)
    (hrest : w.1 = .symbol → ∀ c ∈ rest.head?, c.isAlphanum = false) :
    standard.IsMatch (w.2.toList ++ rest) w.2.toList w.1 := by
  cases h with
  | sign hsign => simpa using isMatch_sign hsign rest
  | @epsilon text hspells =>
      have hletters := Automaton.isAlphanum_of_accepts_epsilon
        (Automaton.accepts_epsilon_iff.2 hspells)
      have htake : text.toList.take 7 = text.toList :=
        List.take_of_length_le (Nat.le_of_eq (length_of_spellsEpsilon hspells))
      have hmatch := isMatch_epsilon hletters (htake.symm ▸ hspells) rest
      rwa [htake] at hmatch
  | name hname =>
      exact isMatch_name (by simpa using hname.ne_empty) hname.letters (hrest rfl) hname.not_epsilon

/-- What follows a name in a text whose words stand apart is no letter and no digit. -/
theorem head?_texts (hspelled : ∀ next ∈ pieces, Blank next.gap ∧ Spelled next.word)
    (hgap : Blank gap) (hapart : ∀ next ∈ pieces.head?, piece.Apart next)
    (hname : piece.word.1 = .symbol) :
    ∀ c ∈ (Piece.texts pieces ++ gap).head?, c.isAlphanum = false := by
  have hblank : ∀ {c}, isBlank c = true → c.isAlphanum = false := by
    intro c hc
    by_contra hletter
    rw [isBlank_eq_false_of_isAlphanum (by simpa using hletter)] at hc
    cases hc
  cases pieces with
  | nil => exact fun c hc => hblank (hgap c (List.mem_of_mem_head? hc))
  | cons next later =>
      rcases next with ⟨front, word⟩
      rcases hspelled _ List.mem_cons_self with ⟨hfront, hword⟩
      have htexts : Piece.texts (⟨front, word⟩ :: later) ++ gap =
          front ++ (word.2.toList ++ (Piece.texts later ++ gap)) := by
        simp [Piece.texts]
      intro c hc
      rw [htexts] at hc
      cases front with
      | cons d more =>
          obtain rfl : d = c := Option.some.inj hc
          exact hblank (hfront d List.mem_cons_self)
      | nil =>
          -- Without blanks the next word is a sign.
          have hsign : ¬ (word.1 = .symbol ∨ word.1 = .epsilon) := fun h =>
            hapart _ rfl hname h rfl
          cases hword with
          | @sign kind d hkind =>
              obtain rfl : d = c := by simpa using hc
              exact isAlphanum_eq_false_of_sign hkind
          | epsilon => exact absurd (Or.inr rfl) hsign
          | name => exact absurd (Or.inl rfl) hsign

/-- A text that is written with blanks where they have to stand is read as its words. -/
theorem tokens_pieces (hgap : Blank gap) : ∀ {pieces} (cursor lines : Nat),
    (∀ piece ∈ pieces, Blank piece.gap ∧ Spelled piece.word) → pieces.IsChain Piece.Apart →
      ∃ front line, (Scanner.within standard (Piece.texts pieces ++ gap) cursor lines).tokens =
          .ok (front ++ [Token.finish line]) ∧
        front.map Token.word = pieces.map Piece.word := by
  intro pieces
  induction pieces with
  | nil =>
      intro cursor lines _ _
      exact ⟨[], _, Scanner.tokens_end hgap, rfl⟩
  | cons piece later ih =>
      intro cursor lines hspelled hapart
      rcases List.forall_mem_cons.1 hspelled with ⟨⟨hblank, hword⟩, hlater⟩
      rcases List.isChain_cons.1 hapart with ⟨hnext, hchain⟩
      have hmatch := isMatch_of_spelled hword (head?_texts hlater hgap hnext)
      have htext : Piece.texts (piece :: later) ++ gap =
          piece.gap ++ (piece.word.2.toList ++ (Piece.texts later ++ gap)) := by
        simp [Piece.texts]
      rcases ih (cursor + piece.gap.length + piece.word.2.toList.length)
        (lines + piece.gap.count '\n') hlater hchain with ⟨front, line, htokens, hwords⟩
      rw [htext, Scanner.tokens_gap hblank, Scanner.tokens_word hmatch (head?_of_spelled hword),
        htokens]
      refine ⟨_ :: front, line, rfl, ?_⟩
      simp [Token.word, hwords]

end Lexicon
end BnfGrammar
