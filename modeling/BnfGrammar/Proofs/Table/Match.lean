import BnfGrammar.Table.Match
import Mathlib.Data.List.Basic

/-!
# What a table matches

The match of a table is described by the words that its run accepts, without the search for it: it
is the longest non-empty beginning of a text that leads from the start to an accepting state, if
that state has a kind. This file shows that `Table.match?` finds the match whenever there is one.
-/

namespace BnfGrammar
namespace Table

variable {t : Table} {s : StateId} {c : Char} {text word : List Char} {kind kind' : TokenKind}

/-! ## Accepted words -/

@[simp]
theorem run_nil (t : Table) (s : StateId) : t.run s [] = some s :=
  rfl

@[simp]
theorem run_cons (t : Table) (s : StateId) (c : Char) (word : List Char) :
    t.run s (c :: word) = (t.step s c).bind fun next => t.run next word :=
  rfl

/-- A word leads from a state to an accepting one. -/
def AcceptsFrom (t : Table) (s : StateId) (word : List Char) : Prop :=
  ∃ last, t.run s word = some last ∧ t.isAccepting last = true

/-- A word leads from the start to an accepting state. -/
def Accepts (t : Table) (word : List Char) : Prop :=
  t.AcceptsFrom Automaton.start word

theorem acceptsFrom_nil_iff : t.AcceptsFrom s [] ↔ t.isAccepting s = true := by
  simp [AcceptsFrom]

theorem acceptsFrom_cons_iff {next : StateId} (hstep : t.step s c = some next) :
    t.AcceptsFrom s (c :: word) ↔ t.AcceptsFrom next word := by
  simp [AcceptsFrom, hstep]

theorem not_acceptsFrom_cons (hstep : t.step s c = none) : ¬ t.AcceptsFrom s (c :: word) := by
  simp [AcceptsFrom, hstep]

/-- A table matches a word at the front of a text: the word is the longest non-empty beginning that
the table accepts, and the state where it ends has a kind. -/
structure IsMatch (t : Table) (text word : List Char) (kind : TokenKind) : Prop where
  begins : word <+: text
  ne_nil : word ≠ []
  ends : ∃ last, t.run Automaton.start word = some last ∧ t.isAccepting last = true ∧
    t.tokenAt last = some kind
  longest : ∀ longer, longer <+: text → t.Accepts longer → longer.length ≤ word.length

/-! ## The search -/

theorem not_acceptsFrom_of_longest :
    ∀ {text s}, t.longest s text = none → ∀ word, word <+: text → word ≠ [] →
      ¬ t.AcceptsFrom s word := by
  intro text
  induction text with
  | nil => exact fun _ _ hbegins hne => absurd (List.prefix_nil.1 hbegins) hne
  | cons c text ih =>
      intro s h word hbegins hne
      rcases List.prefix_cons_iff.1 hbegins with rfl | ⟨rest, rfl, hrest⟩
      · exact absurd rfl hne
      · cases hstep : t.step s c with
        | none => exact not_acceptsFrom_cons hstep
        | some next =>
            simp only [longest, hstep] at h
            cases hlater : t.longest next text with
            | some found => simp [hlater] at h
            | none =>
                -- Nothing longer is accepted, and the state after the character does not accept.
                rw [acceptsFrom_cons_iff hstep]
                cases rest with
                | nil => simpa [hlater, acceptsFrom_nil_iff] using h
                | cons d rest => exact ih hlater (d :: rest) hrest (List.cons_ne_nil d rest)

/-- What the search finds is an accepted beginning, and no accepted beginning is longer. -/
theorem longest_eq_some :
    ∀ {text s n last}, t.longest s text = some (n, last) →
      (∃ word, word <+: text ∧ word ≠ [] ∧ word.length = n ∧ t.run s word = some last ∧
          t.isAccepting last = true) ∧
        ∀ longer, longer <+: text → t.AcceptsFrom s longer → longer.length ≤ n := by
  intro text
  induction text with
  | nil =>
      intro s n last h
      cases h
  | cons c text ih =>
      intro s n last h
      cases hstep : t.step s c with
      | none => simp [longest, hstep] at h
      | some next =>
          simp only [longest, hstep] at h
          cases hlater : t.longest next text with
          | some found =>
              rcases found with ⟨m, end'⟩
              rw [hlater] at h
              cases h
              rcases ih hlater with ⟨⟨word, hbegins, _, rfl, hrun, haccepting⟩, hlongest⟩
              refine ⟨⟨c :: word, ?_, List.cons_ne_nil c word, rfl, ?_, haccepting⟩, ?_⟩
              · exact List.cons_prefix_cons.2 ⟨rfl, hbegins⟩
              · simpa [hstep] using hrun
              · intro longer hlonger haccepts
                rcases List.prefix_cons_iff.1 hlonger with rfl | ⟨rest, rfl, hrest⟩
                · exact Nat.zero_le _
                · have hbehind := (acceptsFrom_cons_iff hstep).1 haccepts
                  exact Nat.succ_le_succ (hlongest rest hrest hbehind)
          | none =>
              rw [hlater] at h
              by_cases haccepting : t.isAccepting next = true
              · rw [if_pos haccepting] at h
                cases h
                refine ⟨⟨[c], ?_, List.cons_ne_nil c [], rfl, ?_, haccepting⟩, ?_⟩
                · exact List.cons_prefix_cons.2 ⟨rfl, List.nil_prefix⟩
                · simp [hstep]
                · intro longer hlonger haccepts
                  rcases List.prefix_cons_iff.1 hlonger with rfl | ⟨rest, rfl, hrest⟩
                  · exact Nat.zero_le _
                  · -- Nothing is accepted behind the character, so nothing stands there.
                    have hnil : rest = [] := by
                      by_contra hne
                      exact not_acceptsFrom_of_longest hlater rest hrest hne
                        ((acceptsFrom_cons_iff hstep).1 haccepts)
                    rw [hnil]
                    exact Nat.le_refl 1
              · rw [if_neg haccepting] at h
                cases h

/-! ## Matches -/

theorem match?_eq_some_iff {n : Nat} :
    t.match? text = some (n, kind) ↔
      ∃ last, t.longest Automaton.start text = some (n, last) ∧ t.tokenAt last = some kind := by
  simp only [match?, Option.bind_eq_bind, Option.bind_eq_some_iff, Option.pure_def,
    Option.some.injEq, Prod.mk.injEq, Prod.exists]
  constructor
  · rintro ⟨m, last, hlongest, found, htoken, rfl, rfl⟩
    exact ⟨last, hlongest, htoken⟩
  · rintro ⟨last, hlongest, htoken⟩
    exact ⟨n, last, hlongest, kind, htoken, rfl, rfl⟩

/-- A table matches a word exactly if the search gives its length and its kind. -/
theorem isMatch_iff :
    t.IsMatch text word kind ↔ word <+: text ∧ t.match? text = some (word.length, kind) := by
  rw [match?_eq_some_iff]
  constructor
  · intro h
    rcases h.ends with ⟨last, hrun, haccepting, htoken⟩
    have haccepts : t.Accepts word := ⟨last, hrun, haccepting⟩
    cases hlongest : t.longest Automaton.start text with
    | none => exact absurd haccepts (not_acceptsFrom_of_longest hlongest word h.begins h.ne_nil)
    | some found =>
        rcases found with ⟨n, last'⟩
        rcases longest_eq_some hlongest with
          ⟨⟨word', hbegins, _, rfl, hrun', haccepting'⟩, hbound⟩
        -- Neither of the two beginnings is longer than the other.
        have hlength : word'.length = word.length :=
          Nat.le_antisymm (h.longest word' hbegins ⟨last', hrun', haccepting'⟩)
            (hbound word h.begins haccepts)
        have hsame : word' = word :=
          (List.prefix_of_prefix_length_le hbegins h.begins (Nat.le_of_eq hlength)).eq_of_length
            hlength
        subst hsame
        obtain rfl : last' = last := Option.some.inj (hrun'.symm.trans hrun)
        exact ⟨h.begins, last', rfl, htoken⟩
  · rintro ⟨hbegins, last, hlongest, htoken⟩
    rcases longest_eq_some hlongest with ⟨⟨word', hbegins', hne, hlength, hrun, haccepting⟩, hbound⟩
    have hsame : word' = word :=
      (List.prefix_of_prefix_length_le hbegins' hbegins (Nat.le_of_eq hlength)).eq_of_length hlength
    subst hsame
    exact ⟨hbegins, hne, ⟨last, hrun, haccepting, htoken⟩, hbound⟩

theorem exists_isMatch {n : Nat} (h : t.match? text = some (n, kind)) :
    ∃ word, t.IsMatch text word kind ∧ word.length = n := by
  rcases match?_eq_some_iff.1 h with ⟨last, hlongest, _⟩
  rcases longest_eq_some hlongest with ⟨⟨word, hword, _, rfl, _⟩, _⟩
  exact ⟨word, isMatch_iff.2 ⟨hword, h⟩, rfl⟩

theorem match?_eq_none_iff : t.match? text = none ↔ ∀ word kind, ¬ t.IsMatch text word kind := by
  constructor
  · intro h word kind hmatch
    rw [(isMatch_iff.1 hmatch).2] at h
    cases h
  · intro h
    cases hmatch : t.match? text with
    | none => rfl
    | some found =>
        rcases exists_isMatch hmatch with ⟨word, hword, _⟩
        exact absurd hword (h word found.2)

end Table
end BnfGrammar
