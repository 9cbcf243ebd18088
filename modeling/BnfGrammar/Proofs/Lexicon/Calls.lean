import BnfGrammar.Proofs.Lexicon.Tiling

/-!
# Scanning call by call

A scanner may be called one token at a time, more often than there are tokens, and it may be asked
for all remaining tokens at any moment. This file shows that the calls hand out what a whole run
gives, one after the other, and then nothing.

What a single call can do is said once, in `next_cases`: it hands out a word and moves on, or it
finishes the scanner. Everything about sequences of calls follows by induction on their number. The
characters that a scanner has passed are followed apart from that by `Moves`, since a scanner also
passes blanks and since it counts only those line feeds that stand between words.
-/

namespace BnfGrammar

/-- What a lexicon finds at the front of a text is the length of a word that stands there. -/
theorem Lexicon.exists_word_of_match? {lexicon : Lexicon} {text : List Char}
    {found : Nat × TokenKind} (h : lexicon.match? text = some found) :
    ∃ word later, text = word ++ later ∧ word ≠ [] ∧ word.length = found.1 := by
  have hmoves : ¬ lexicon.Stuck text := by
    rw [← match?_eq_none_iff, h]
    simp
  rcases exists_isMatch hmoves with ⟨word, later, kind, hsplit, hne, hmatch⟩
  have hfound : some found = some (word.length, kind) := h.symm.trans (isMatch_iff.1 hmatch).2
  exact ⟨word, later, hsplit, hne, (congrArg Prod.fst (Option.some.inj hfound)).symm⟩

namespace Scanner

variable {s later : Scanner} {lexicon : Lexicon} {passed more : List Char} {lines added n : Nat}

/-! ## Sequences of calls -/

/-- What `n` calls hand out, one after the other. -/
def answers : Nat → Scanner → List (Option Outcome)
  | 0, _ => []
  | n + 1, s => s.next.1 :: answers n s.next.2

/-- The scanner after `n` calls. -/
def after : Nat → Scanner → Scanner
  | 0, s => s
  | n + 1, s => after n s.next.2

/-- The last outcome of a whole run: the end of the input or a failure. -/
def IsLast (outcome : Outcome) : Prop :=
  (∃ line, outcome = .ok (Token.finish line)) ∨ ∃ e, outcome = .error e

/-! ## Movements -/

/-- One scanner has come from another by passing some characters and counting some lines. -/
structure Moves (s later : Scanner) (passed : List Char) (lines : Nat) : Prop where
  rest_eq : s.rest = passed ++ later.rest
  cursor_eq : later.cursor = s.cursor + passed.length
  line_eq : later.line = s.line + UInt32.ofNat lines
  lines_le : lines ≤ passed.count '\n'

namespace Moves

theorem refl (s : Scanner) : Moves s s [] 0 where
  rest_eq := rfl
  cursor_eq := rfl
  line_eq := (UInt32.add_zero s.line).symm
  lines_le := Nat.le_refl 0

theorem trans {a b c : Scanner} (hab : Moves a b passed lines) (hbc : Moves b c more added) :
    Moves a c (passed ++ more) (lines + added) where
  rest_eq := by simp [hab.rest_eq, hbc.rest_eq]
  cursor_eq := by simp [hab.cursor_eq, hbc.cursor_eq, Nat.add_assoc]
  line_eq := by simp [hab.line_eq, hbc.line_eq, UInt32.add_assoc]
  lines_le := by
    have hsum := Nat.add_le_add hab.lines_le hbc.lines_le
    simpa [List.count_append] using hsum

/-- Finishing a scanner does not move it. -/
theorem finish (h : Moves s later passed lines) :
    Moves s { later with finished := true } passed lines :=
  ⟨h.rest_eq, h.cursor_eq, h.line_eq, h.lines_le⟩

theorem cursor_le (h : Moves s later passed lines) : s.cursor ≤ later.cursor := by
  have hcursor := h.cursor_eq
  omega

end Moves

theorem moves_skipBlanks (s : Scanner) :
    Moves s s.skipBlanks (s.rest.takeWhile isBlank) ((s.rest.takeWhile isBlank).count '\n') where
  rest_eq := List.takeWhile_append_dropWhile.symm
  cursor_eq := rfl
  line_eq := rfl
  lines_le := Nat.le_refl _

/-! ## Single calls -/

theorem next_of_finished (h : s.finished = true) : s.next = (none, s) := by
  simp [next, h]

theorem next_of_unfinished (h : s.finished = false) :
    s.next = (some s.skipBlanks.takeWord.1, s.skipBlanks.takeWord.2) := by
  simp [next, h]

theorem exists_outcome_of_unfinished (h : s.finished = false) :
    ∃ outcome, s.next.1 = some outcome :=
  ⟨_, congrArg Prod.fst (next_of_unfinished h)⟩

/-- A scanner that stands at no blank passes a word, or it finishes where it stands. -/
theorem takeWord_cases (s : Scanner) :
    (∃ token word, s.takeWord.1 = .ok token ∧ token.value ≠ "" ∧ word ≠ [] ∧
        s.takeWord.2.finished = s.finished ∧ Moves s s.takeWord.2 word 0) ∨
      IsLast s.takeWord.1 ∧ s.takeWord.2 = { s with finished := true } := by
  cases hrest : s.rest with
  | nil =>
      right
      simp [takeWord_nil hrest, hrest, IsLast]
  | cons c rest =>
      rw [takeWord_cons hrest]
      cases hfound : s.lexicon.match? (c :: rest) with
      | none =>
          right
          simp [hrest, IsLast]
      | some found =>
          left
          rcases Lexicon.exists_word_of_match? hfound with ⟨word, later, hsplit, hne, hlength⟩
          have htake : (c :: rest).take found.1 = word := by
            rw [hsplit, ← hlength, List.take_left]
          have hdrop : (c :: rest).drop found.1 = later := by
            rw [hsplit, ← hlength, List.drop_left]
          refine ⟨_, word, rfl, ?_, hne, rfl, ?_, ?_, ?_, Nat.zero_le _⟩
          · simpa [htake, String.ext_iff] using hne
          · exact hrest.trans (hsplit.trans (congrArg (word ++ ·) hdrop.symm))
          · simp [hlength]
          · exact (UInt32.add_zero s.line).symm

/-- What a call does to a scanner that has not finished: it hands out a word and passes it, or it
hands out the last outcome and finishes the scanner. -/
theorem next_cases (h : s.finished = false) :
    (∃ token passed lines, s.next.1 = some (.ok token) ∧ token.value ≠ "" ∧ passed ≠ [] ∧
        s.next.2.finished = false ∧ Moves s s.next.2 passed lines) ∨
      ∃ outcome passed lines, s.next.1 = some outcome ∧ IsLast outcome ∧
        s.next.2.finished = true ∧ Moves s s.next.2 passed lines := by
  rw [next_of_unfinished h]
  have hblanks := moves_skipBlanks s
  rcases takeWord_cases s.skipBlanks with
    ⟨token, word, houtcome, hvalue, hne, hfinished, hmoves⟩ | ⟨hlast, hafter⟩
  · refine Or.inl ⟨token, _, _, congrArg some houtcome, hvalue, ?_, ?_, hblanks.trans hmoves⟩
    · simp [hne]
    · exact hfinished.trans h
  · have hmoves := hblanks.finish
    rw [← hafter] at hmoves
    exact Or.inr ⟨_, _, _, rfl, hlast, congrArg Scanner.finished hafter, hmoves⟩

/-- A call passes some characters, which may be none. -/
theorem exists_moves_next (s : Scanner) : ∃ passed lines, Moves s s.next.2 passed lines := by
  cases h : s.finished with
  | true =>
      rw [next_of_finished h]
      exact ⟨[], 0, Moves.refl s⟩
  | false =>
      rcases next_cases h with
        ⟨_, passed, lines, _, _, _, _, hmoves⟩ | ⟨_, passed, lines, _, _, _, hmoves⟩
      · exact ⟨passed, lines, hmoves⟩
      · exact ⟨passed, lines, hmoves⟩

/-! ## Whole runs -/

/-- The first call and the run after it. -/
theorem outcomes_eq_next (h : s.finished = false) {outcome : Outcome}
    (houtcome : s.next.1 = some outcome) : s.outcomes = outcome :: s.next.2.outcomes := by
  rw [next_of_unfinished h] at houtcome ⊢
  rw [outcomes_eq h, Option.some.inj houtcome]

theorem outcomes_of_next_finished (h : s.finished = false) {outcome : Outcome}
    (houtcome : s.next.1 = some outcome) (hlater : s.next.2.finished = true) :
    s.outcomes = [outcome] := by
  rw [outcomes_eq_next h houtcome, outcomes_of_finished hlater]

theorem length_outcomesWithin_le (n : Nat) (s : Scanner) : (outcomesWithin n s).length ≤ n := by
  induction n generalizing s with
  | zero => exact Nat.le_refl 0
  | succ n ih =>
      cases h : s.finished with
      | true => simp [outcomesWithin_of_finished h]
      | false =>
          rw [outcomesWithin_succ h]
          exact Nat.succ_le_succ (ih _)

/-- A run hands out words and then its last outcome. -/
theorem exists_outcomes_eq (h : s.finished = false) :
    ∃ (front : List Token) (final : Outcome), s.outcomes = front.map .ok ++ [final] ∧
      (∀ token ∈ front, token.value ≠ "") ∧ IsLast final := by
  -- By induction on what is left: a call that does not finish the scanner passes something.
  induction hlength : s.rest.length using Nat.strongRecOn generalizing s with
  | _ n ih =>
      rcases next_cases h with
        ⟨token, passed, lines, houtcome, hvalue, hne, hlater, hmoves⟩ |
          ⟨outcome, _, _, houtcome, hlast, hlater, _⟩
      · have hless : s.next.2.rest.length < n := by
          have hpositive := List.length_pos_of_ne_nil hne
          rw [← hlength, hmoves.rest_eq, List.length_append]
          omega
        rcases ih _ hless hlater rfl with ⟨front, final, hrest, hvalues, hlast⟩
        refine ⟨token :: front, final, ?_, List.forall_mem_cons.2 ⟨hvalue, hvalues⟩, hlast⟩
        rw [outcomes_eq_next h houtcome, hrest]
        rfl
      · exact ⟨[], outcome, outcomes_of_next_finished h houtcome hlater, by simp, hlast⟩

/-! ## Calls and whole runs -/

theorem after_of_finished (h : s.finished = true) (n : Nat) : s.after n = s := by
  induction n with
  | zero => rfl
  | succ n ih => rw [after, next_of_finished h, ih]

theorem after_add (m n : Nat) (s : Scanner) : s.after (m + n) = (s.after m).after n := by
  induction m generalizing s with
  | zero => rw [Nat.zero_add, after]
  | succ m ih => rw [Nat.succ_add, after, ih, after]

theorem after_succ (n : Nat) (s : Scanner) : s.after (n + 1) = (s.after n).next.2 :=
  after_add n 1 s

theorem answers_of_finished (h : s.finished = true) (n : Nat) :
    s.answers n = List.replicate n none := by
  induction n with
  | zero => rfl
  | succ n ih => rw [answers, next_of_finished h, ih, List.replicate_succ]

/-- Calls hand out what a whole run gives, and then nothing. -/
theorem answers_eq (n : Nat) (s : Scanner) :
    s.answers n =
      (s.outcomes.take n).map some ++ List.replicate (n - s.outcomes.length) none := by
  induction n generalizing s with
  | zero => simp [answers]
  | succ n ih =>
      cases h : s.finished with
      | true => simp [answers_of_finished h, outcomes_of_finished h]
      | false =>
          rcases exists_outcome_of_unfinished h with ⟨outcome, houtcome⟩
          rw [answers, ih, outcomes_eq_next h houtcome, houtcome]
          simp

/-- The calls take away from the run what they hand out. -/
theorem outcomes_after (n : Nat) (s : Scanner) : (s.after n).outcomes = s.outcomes.drop n := by
  induction n generalizing s with
  | zero => rfl
  | succ n ih =>
      cases h : s.finished with
      | true => simp [after_of_finished h, outcomes_of_finished h]
      | false =>
          rcases exists_outcome_of_unfinished h with ⟨outcome, houtcome⟩
          rw [after, ih, outcomes_eq_next h houtcome, List.drop_succ_cons]

theorem finished_of_outcomes_nil (h : s.outcomes = []) : s.finished = true := by
  cases hfinished : s.finished with
  | true => rfl
  | false =>
      rw [outcomes_eq hfinished] at h
      cases h

/-- Once the whole run was handed out nothing changes any more. -/
theorem after_stays (hn : s.outcomes.length ≤ n) (m : Nat) : s.after (n + m) = s.after n := by
  have hnil : (s.after n).outcomes = [] := by
    rw [outcomes_after, List.drop_of_length_le hn]
  rw [after_add, after_of_finished (finished_of_outcomes_nil hnil)]

/-- The result of a run that hands out words and then a last outcome. -/
theorem mapM_outcomes (front : List Token) (final : Outcome) :
    (front.map Except.ok ++ [final]).mapM id = final.map fun token => front ++ [token] := by
  induction front with
  | nil => cases final <;> rfl
  | cons token front ih =>
      rw [List.map_cons, List.cons_append, List.mapM_cons, ih]
      cases final <;> rfl

/-- What is left to a run after some calls. -/
theorem tokens_after {front : List Token} {final : Outcome}
    (h : s.outcomes = front.map .ok ++ [final]) (n : Nat) :
    (s.after n).tokens =
      if n ≤ front.length then final.map fun token => front.drop n ++ [token] else .ok [] := by
  rw [tokens, outcomes_after, h]
  by_cases hn : n ≤ front.length
  · rw [if_pos hn, List.drop_append_of_le_length (by simpa using hn), ← List.map_drop,
      mapM_outcomes]
  · rw [if_neg hn, List.drop_of_length_le (by simp; omega)]
    rfl

/-! ## Positions -/

theorem exists_moves_after (n : Nat) (s : Scanner) :
    ∃ passed lines, Moves s (s.after n) passed lines := by
  induction n with
  | zero => exact ⟨[], 0, Moves.refl s⟩
  | succ n ih =>
      rw [after_succ]
      rcases ih with ⟨passed, lines, hmoves⟩
      rcases exists_moves_next (s.after n) with ⟨more, added, hnext⟩
      exact ⟨passed ++ more, lines + added, hmoves.trans hnext⟩

variable {text : String}

theorem cursor_le_length (h : Moves (ofText lexicon text) s passed lines) :
    s.cursor ≤ text.length := by
  have hlength := congrArg List.length h.rest_eq
  have hcursor := h.cursor_eq
  simp only [ofText, List.length_append, String.length_toList] at hlength hcursor
  omega

/-- The line of a scanner of a text counts some of the line feeds that it has passed. -/
theorem line_eq_lineAfter (h : Moves (ofText lexicon text) s passed lines) :
    s.line = lineAfter lines ∧ lines ≤ text.toList.count '\n' := by
  refine ⟨?_, ?_⟩
  · have hline := lineAfter_add 0 lines
    rw [Nat.zero_add] at hline
    rw [h.line_eq, ← hline]
    rfl
  · have htext : text.toList = passed ++ s.rest := h.rest_eq
    calc
      lines ≤ passed.count '\n' := h.lines_le
      _ ≤ (passed ++ s.rest).count '\n' := (List.sublist_append_left passed s.rest).count_le _
      _ = text.toList.count '\n' := by rw [htext]

/-- In a text with few line feeds the line of a scanner never goes back. -/
theorem line_le_next (h : Moves (ofText lexicon text) s passed lines)
    (hfew : 1 + text.toList.count '\n' < UInt32.size) : s.line ≤ s.next.2.line := by
  rcases exists_moves_next s with ⟨more, added, hnext⟩
  rcases line_eq_lineAfter h with ⟨hline, hle⟩
  rcases line_eq_lineAfter (h.trans hnext) with ⟨hline', hle'⟩
  have hnow : (lineAfter lines).toNat = 1 + lines := toNat_lineAfter (by omega)
  have hlater : (lineAfter (lines + added)).toNat = 1 + (lines + added) :=
    toNat_lineAfter (by omega)
  rw [hline, hline', UInt32.le_iff_toNat_le, hnow, hlater]
  omega

/-- A call that hands out anything but the last outcome moves the scanner on. -/
theorem cursor_lt_next {front : List Token} {final : Outcome}
    (h : s.outcomes = front.map .ok ++ [final]) (hn : n < front.length) :
    (s.after n).cursor < (s.after (n + 1)).cursor := by
  have hlength : (s.after n).outcomes.length = front.length + 1 - n := by
    rw [outcomes_after, List.length_drop, h]
    simp
  have hunfinished : (s.after n).finished = false := by
    by_contra hfinished
    rw [outcomes_of_finished (by simpa using hfinished), List.length_nil] at hlength
    omega
  rw [after_succ]
  rcases next_cases hunfinished with
    ⟨_, passed, _, _, _, hne, _, hmoves⟩ | ⟨_, _, _, houtcome, _, hlater, _⟩
  · have hpositive := List.length_pos_of_ne_nil hne
    have hcursor := hmoves.cursor_eq
    omega
  · -- The call would be the last, but there are at least two outcomes left.
    rw [outcomes_of_next_finished hunfinished houtcome hlater, List.length_singleton] at hlength
    omega

/-! ## Calls of a new scanner -/

/-- A whole run of a new scanner gives words and then the end of the input or a failure. Calls hand
these out one after the other and nothing behind them, and from then on nothing changes. Asking for
the rest after some calls gives the tokens that are left, or the failure, or nothing if the last
outcome was handed out. Meanwhile the scanner stays within the text, never goes back, and moves on
with every word. -/
theorem calls_agree_with_run (lexicon : Lexicon) (text : String) :
    ∃ (front : List Token) (final : Outcome),
      (ofText lexicon text).outcomes = front.map .ok ++ [final] ∧
      (∀ token ∈ front, token.value ≠ "") ∧ IsLast final ∧
      lexicon.scan text = (final.map fun token => front ++ [token]) ∧
      (ofText lexicon text).outcomes.length ≤ text.length + 1 ∧
      ∀ n,
        (ofText lexicon text).answers n = ((ofText lexicon text).outcomes.take n).map some ++
          List.replicate (n - (ofText lexicon text).outcomes.length) none ∧
        ((ofText lexicon text).outcomes.length ≤ n → ∀ m,
          (ofText lexicon text).after (n + m) = (ofText lexicon text).after n) ∧
        ((ofText lexicon text).after n).tokens =
          (if n ≤ front.length then final.map fun token => front.drop n ++ [token] else .ok []) ∧
        ((ofText lexicon text).after n).cursor ≤ text.length ∧
        ((ofText lexicon text).after n).cursor ≤ ((ofText lexicon text).after (n + 1)).cursor ∧
        (n < front.length →
          ((ofText lexicon text).after n).cursor < ((ofText lexicon text).after (n + 1)).cursor) ∧
        (1 + text.toList.count '\n' < UInt32.size →
          ((ofText lexicon text).after n).line ≤ ((ofText lexicon text).after (n + 1)).line) := by
  rcases exists_outcomes_eq (s := ofText lexicon text) rfl with ⟨front, final, hrun, hvalues, hlast⟩
  have hbound : (ofText lexicon text).outcomes.length ≤ text.length + 1 := by
    rw [← String.length_toList]
    exact length_outcomesWithin_le (text.toList.length + 1) (ofText lexicon text)
  refine ⟨front, final, hrun, hvalues, hlast, tokens_after hrun 0, hbound, ?_⟩
  intro n
  rcases exists_moves_after n (ofText lexicon text) with ⟨passed, lines, hmoves⟩
  rcases exists_moves_next ((ofText lexicon text).after n) with ⟨_, _, hnext⟩
  refine ⟨answers_eq n _, fun hn => after_stays hn, tokens_after hrun n,
    cursor_le_length hmoves, ?_, cursor_lt_next hrun, ?_⟩
  · rw [after_succ]
    exact hnext.cursor_le
  · rw [after_succ]
    exact line_le_next hmoves

-- A failure is handed out once, and what stands behind it is not read.
example : ((ofText Lexicon.standard "a\n?:").answers 3).map Option.isSome = [true, true, false] ∧
    ((ofText Lexicon.standard "a\n?:").after 3).cursor = 2 := by
  decide +kernel

end Scanner
end BnfGrammar
