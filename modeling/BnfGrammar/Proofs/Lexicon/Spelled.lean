import BnfGrammar.Proofs.Lexicon.Layout
import BnfGrammar.Proofs.Lexicon.Spaced

/-!
# The words of scanned texts

Every word that the lexicon of the grammar notation matches is spelled as its kind requires, and so
are all tokens of a scanned text before its end. In particular a name is never the keyword for the
empty alternative and never begins with it.
-/

namespace BnfGrammar
namespace Lexicon

variable {lexicon : Lexicon} {text word word' gap : List Char} {kind kind' : TokenKind}

/-! ## Matched words -/

/-- A lexicon matches at most one word at the front of a text. -/
theorem IsMatch.unique (h : lexicon.IsMatch text word kind)
    (h' : lexicon.IsMatch text word' kind') : word = word' ∧ kind = kind' := by
  rcases isMatch_iff.1 h with ⟨hbegins, hfound⟩
  rcases isMatch_iff.1 h' with ⟨hbegins', hfound'⟩
  have hsame : (word.length, kind) = (word'.length, kind') :=
    Option.some.inj (hfound.symm.trans hfound')
  have hlength : word.length = word'.length := congrArg Prod.fst hsame
  refine ⟨?_, congrArg Prod.snd hsame⟩
  exact (List.prefix_of_prefix_length_le hbegins hbegins' hlength.le).eq_of_length hlength

theorem Stuck.not_isMatch (h : lexicon.Stuck text) : ¬ lexicon.IsMatch text word kind := by
  intro hmatch
  rcases hmatch.exists_table with ⟨table, htable, hmatch⟩
  exact h table htable word kind hmatch

/-- A text that begins with a letter or a digit begins with a run of these. -/
theorem exists_run {c : Char} (hc : c.isAlphanum = true) (rest : List Char) :
    ∃ run later, c :: rest = run ++ later ∧ run ≠ [] ∧ (∀ d ∈ run, d.isAlphanum = true) ∧
      ∀ d ∈ later.head?, d.isAlphanum = false := by
  have hlater : ∀ d ∈ ((c :: rest).dropWhile Char.isAlphanum ++ []).head?, d.isAlphanum = false :=
    head?_dropWhile_append (by simp)
  rw [List.append_nil] at hlater
  exact ⟨_, _, (List.takeWhile_append_dropWhile (p := Char.isAlphanum)).symm, by simp [hc],
    fun d hd => List.all_eq_true.1 List.all_takeWhile d hd, hlater⟩

/-- What the lexicon of the notation matches is spelled as its kind requires. -/
theorem spelled_of_isMatch (h : standard.IsMatch text word kind) :
    Spelled (kind, String.ofList word) := by
  rcases h.exists_cons with ⟨c, more, rfl⟩
  have hc : isBlank c = false := orderly_standard.solid_of_isMatch h c List.mem_cons_self
  rcases (isMatch_iff.1 h).1 with ⟨rest, rfl⟩
  rw [List.cons_append] at h
  by_cases hletter : c.isAlphanum = true
  · -- The word lies in the run of letters and digits at the front.
    rcases exists_run hletter (more ++ rest) with ⟨run, later, htext, hne, hrun, hlater⟩
    rw [htext] at h
    cases hspells : spellsEpsilon (run.take 7) with
    | true =>
        rcases h.unique (isMatch_epsilon hrun hspells later) with ⟨hword, rfl⟩
        rw [hword]
        exact .epsilon (by simpa using hspells)
    | false =>
        rcases h.unique (isMatch_name hne hrun hlater hspells) with ⟨hword, rfl⟩
        rw [hword]
        exact .name ⟨by simpa using hne, by simpa using hrun, by simpa using hspells⟩
  · -- It is a sign then, since no word begins with anything else.
    cases hsign : signKind? c with
    | some kind' =>
        rcases h.unique (isMatch_sign hsign _) with ⟨hword, rfl⟩
        rw [hword]
        exact .sign hsign
    | none =>
        have hnot : belongs c = false := by
          simp [belongs, hc, hsign, hletter]
        exact absurd h (fails_of_not_belongs hnot _).1.not_isMatch

/-! ## Scanned words -/

variable {text : String} {tokens : List Token} {tiles : List Tile} {lines : Nat}

theorem Fits.spelled (hfits : standard.Fits gap lines tiles) :
    ∀ tile ∈ tiles, Spelled tile.token.word := by
  induction tiles generalizing lines with
  | nil => simp
  | cons tile tiles ih =>
      rcases hfits with ⟨_, _, hmatch, _, hlater⟩
      have hspelled := spelled_of_isMatch hmatch
      rw [Tile.word, String.ofList_toList] at hspelled
      exact List.forall_mem_cons.2 ⟨hspelled, ih hlater⟩

/-- All tokens of a scanned text before the end of the input are spelled as their kinds require. -/
theorem exists_spelled_of_scan (hscan : standard.scan text = .ok tokens) :
    ∃ front line, tokens = front ++ [Token.finish line] ∧ ∀ t ∈ front, Spelled t.word := by
  rcases exists_tiles_of_scan hscan with ⟨tiles, gap, _, _, hfits, rfl⟩
  exact ⟨_, _, rfl, List.forall_mem_map.2 hfits.spelled⟩

end Lexicon

/-- The end of the input has no spelling. -/
theorem Spelled.kind_ne_endOfInput {w : Outline.Word} (h : Spelled w) : w.1 ≠ .endOfInput := by
  cases h with
  | @sign kind c hsign =>
      rintro rfl
      unfold signKind? at hsign
      split at hsign <;> cases hsign
  | epsilon => simp
  | name => simp

end BnfGrammar
