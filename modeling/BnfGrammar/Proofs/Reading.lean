import BnfGrammar.Proofs.Lexicon.Spelled
import BnfGrammar.Proofs.Source

/-!
# Texts that describe grammars

The stages from a text to its analysis in one place. A text describes a grammar if scanning and
parsing succeed. The words before the end of the text are then spelled as their kinds require, and
they are the words of an outline, of whose tree the analysis is made.
-/

namespace BnfGrammar

/-! ## Steps that may fail -/

section

variable {ε ε' α β : Type} {x : Except ε α} {a : α} {b : β}

theorem bind_eq_ok_iff {f : α → Except ε β} : x >>= f = .ok b ↔ ∃ a, x = .ok a ∧ f a = .ok b := by
  cases x <;> simp [bind, Except.bind]

theorem map_eq_ok_iff {f : α → β} : x.map f = .ok b ↔ ∃ a, x = .ok a ∧ f a = b := by
  cases x <;> simp [Except.map]

theorem mapError_eq_ok_iff {f : ε → ε'} : x.mapError f = .ok a ↔ x = .ok a := by
  cases x <;> simp [Except.mapError]

end

/-! ## Stages -/

variable {text : String} {tokens front : List Token} {line : UInt32} {tree : Node}
  {sets : List ProductionSet}

/-- Tokens that end in the end of the input are parsed if those before it are the words of an
outline. -/
theorem Node.parse_finish_eq_ok_iff (hkinds : ∀ t ∈ front, t.kind ≠ .endOfInput) :
    parse (front ++ [Token.finish line]) = .ok tree ↔
      ∃ o : Outline, front.map Token.word = o.words ∧ tree = o.tree "" := by
  have hend : ([Token.finish line].headD
      (Parse.Progress.ofTokens (front ++ [Token.finish line])).finish).kind = .endOfInput := rfl
  rcases Token.beforeEnd_append hkinds hend with ⟨hbefore, hfirst⟩
  rw [parse_eq_ok_iff_outline, hbefore, hfirst]
  rfl

namespace Lexicon

variable {lexicon : Lexicon} {a : Analysis}

theorem analyzeText_eq_ok_iff :
    lexicon.analyzeText text = .ok a ↔
      ∃ tokens tree, lexicon.scan text = .ok tokens ∧ Node.parse tokens = .ok tree ∧
        a = Analysis.ofTree tree := by
  constructor
  · intro h
    rcases map_eq_ok_iff.1 h with ⟨tree, htree, rfl⟩
    rcases bind_eq_ok_iff.1 htree with ⟨tokens, hscan, hparse⟩
    exact ⟨tokens, tree, mapError_eq_ok_iff.1 hscan, mapError_eq_ok_iff.1 hparse, rfl⟩
  · rintro ⟨tokens, tree, hscan, hparse, rfl⟩
    refine map_eq_ok_iff.2 ⟨tree, bind_eq_ok_iff.2 ⟨tokens, ?_, ?_⟩, rfl⟩
    · exact mapError_eq_ok_iff.2 hscan
    · exact mapError_eq_ok_iff.2 hparse

/-- A text that scans and parses consists of the words of an outline. -/
theorem exists_outline_of_scan (hscan : standard.scan text = .ok tokens)
    (hparse : Node.parse tokens = .ok tree) :
    ∃ (o : Outline) (front : List Token) (line : UInt32), tokens = front ++ [Token.finish line] ∧
      front.map Token.word = o.words ∧ (∀ w ∈ o.words, Spelled w) ∧ tree = o.tree "" := by
  rcases exists_spelled_of_scan hscan with ⟨front, line, rfl, hspelled⟩
  have hkinds : ∀ t ∈ front, t.kind ≠ .endOfInput := fun t ht => (hspelled t ht).kind_ne_endOfInput
  rcases (Node.parse_finish_eq_ok_iff hkinds).1 hparse with ⟨o, hwords, rfl⟩
  refine ⟨o, front, line, rfl, hwords, ?_, rfl⟩
  rw [← hwords]
  exact List.forall_mem_map.2 hspelled

/-- A text that writes production sets down describes their grammar. -/
theorem exists_tree_of_writes (h : Writes text sets) (hsets : sets ≠ []) (hnames : NamesOf sets) :
    ∃ tokens tree, standard.scan text = .ok tokens ∧ Node.parse tokens = .ok tree ∧
      (Grammar.ofTree tree).Gathers sets := by
  rcases scan_of_writes h hnames with ⟨front, line, hscan, hwrites⟩
  rcases hwrites.exists_blocks with ⟨blocks, hblocks, rfl⟩
  cases blocks with
  | nil => exact absurd rfl hsets
  | cons first others =>
      let o : Outline := ⟨first, others⟩
      have hfront : front.map Token.word = o.words := hblocks.symm
      have hkinds : ∀ t ∈ front, t.kind ≠ .endOfInput := fun t ht =>
        o.kind_ne_endOfInput t.word (hfront ▸ List.mem_map_of_mem ht)
      exact ⟨_, o.tree "", hscan, (Node.parse_finish_eq_ok_iff hkinds).2 ⟨o, hfront, rfl⟩,
        Grammar.gathers_ofTree o ""⟩

end Lexicon
end BnfGrammar
