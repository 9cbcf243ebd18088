import BnfGrammar.Proofs.Reading
import BnfGrammar.Proofs.Sample.Drawn
import BnfGrammar.Sample.Trial

/-!
# Trials of texts

A trial of a text succeeds exactly if the text describes a grammar: what it checks besides scanning
and parsing holds of every such text. The end of the input comes once and last, the words rejoined
by single blanks are read as the same words, and the leaves of the tree are the words of the text.

All samples describe grammars, whatever was drawn for them, so their trials succeed.
-/

namespace BnfGrammar
namespace Trial

variable {lexicon : Lexicon} {text : String} {tokens front : List Token} {line : UInt32}
  {tree : Node}

/-! ## Checks -/

section

variable {ε β : Type} {c : Prop} [Decidable c] {e : ε} {b : β}

/-- A step behind a guard succeeds if the guard does not throw. -/
theorem guard_bind_eq_ok_iff {after : PUnit → Except ε β} {x : Except ε β} :
    (if c then throw e >>= after else x) = .ok b ↔ ¬ c ∧ x = .ok b := by
  by_cases hc : c <;> simp [hc, throw, throwThe, MonadExceptOf.throw, bind, Except.bind]

theorem guard_eq_ok_iff : (if c then throw e else pure b : Except ε β) = .ok b ↔ ¬ c := by
  by_cases hc : c <;> simp [hc, throw, throwThe, MonadExceptOf.throw, pure, Except.pure]

end

/-- What a trial checks. The last check compares two values that are the same by definition. -/
theorem check_eq_ok_iff :
    check lexicon text = .ok () ↔
      ∃ tokens, lexicon.scan text = .ok tokens ∧
        (endCount tokens = 1 ∧ tokens.getLast?.map Token.kind = some .endOfInput) ∧
        ∃ again, lexicon.scan (" ".intercalate (tokens.map Token.value)) = .ok again ∧
          content tokens = content again ∧
          ∃ tree, Node.parse tokens = .ok tree ∧
            tree.leaves.map Node.label = tokens.map Token.value := by
  simp only [check, bind_eq_ok_iff, mapError_eq_ok_iff, guard_bind_eq_ok_iff, guard_eq_ok_iff,
    not_or, Decidable.not_not, and_true]

/-! ## Texts that describe grammars -/

theorem endCount_finish (hkinds : ∀ t ∈ front, t.kind ≠ .endOfInput) :
    endCount (front ++ [Token.finish line]) = 1 := by
  have hnone : front.countP (fun t => t.kind = .endOfInput) = 0 :=
    List.countP_eq_zero.2 fun t ht => by simpa using hkinds t ht
  rw [endCount, List.countP_append, hnone]
  rfl

/-- The leaves of the tree of a text are the words of the text, up to and with its end. -/
theorem labels_leaves {o : Outline} (hwords : front.map Token.word = o.words) :
    (o.tree "").leaves.map Node.label = (front ++ [Token.finish line]).map Token.value := by
  have hlabels : o.words.map (fun w => w.leaf.label) = front.map Token.value := by
    rw [← hwords, List.map_map]
    rfl
  rw [Outline.leaves_tree, List.map_append, List.map_map, List.map_append]
  exact congrArg₂ (· ++ ·) hlabels rfl

/-- Everything else that a trial checks holds of every text that scans and parses. -/
theorem check_of_parse (hscan : Lexicon.standard.scan text = .ok tokens)
    (hparse : Node.parse tokens = .ok tree) : check Lexicon.standard text = .ok () := by
  rcases Lexicon.exists_outline_of_scan hscan hparse with ⟨o, front, line, rfl, hwords, _, rfl⟩
  have hkinds : ∀ t ∈ front, t.kind ≠ .endOfInput := fun t ht =>
    o.kind_ne_endOfInput t.word (hwords ▸ List.mem_map_of_mem ht)
  have hlast : (front ++ [Token.finish line]).getLast?.map Token.kind = some .endOfInput := by
    rw [List.getLast?_concat]
    rfl
  refine check_eq_ok_iff.2 ⟨_, hscan, ⟨endCount_finish hkinds, hlast⟩, _,
    Lexicon.orderly_standard.scan_rejoined hscan, ?_, _, hparse, labels_leaves hwords⟩
  rw [content, content, List.map_map]
  rfl

theorem check_standard_eq_ok_iff :
    check Lexicon.standard text = .ok () ↔
      ∃ tokens tree, Lexicon.standard.scan text = .ok tokens ∧ Node.parse tokens = .ok tree := by
  constructor
  · intro h
    rcases check_eq_ok_iff.1 h with ⟨tokens, hscan, _, _, _, _, tree, hparse, _⟩
    exact ⟨tokens, tree, hscan, hparse⟩
  · rintro ⟨tokens, tree, hscan, hparse⟩
    exact check_of_parse hscan hparse

end Trial

/-! ## Samples -/

namespace Sample

/-- Every sample describes the grammar that was drawn, whatever the chooser answers: its left-hand
sides come in the order of their numbers, each has one to three alternatives of at most four names,
and its terminals are from the stock. Its trial succeeds, as does that of every text that scans and
parses, and of no other text. -/
theorem samples_pass_trials :
    (∀ {σ : Type} (choose : Chooser σ) (n : Nat) (state : σ),
      ∃ a, Lexicon.standard.analyzeText (text choose n state) = .ok a ∧
        a.grammar.nonterminals.toList = (List.range (max n 1)).map (fun i => s!"N{i}") ∧
        a.goal = some "N0" ∧
        a.grammar.productions.keys = a.grammar.nonterminals.toList ∧
        (∀ entry ∈ a.grammar.productions.toList, 1 ≤ entry.2.length ∧ entry.2.length ≤ 3 ∧
          ∀ alternative ∈ entry.2, alternative.length ≤ 4) ∧
        (∀ name ∈ a.grammar.terminals, ∃ i < max n 1 + 3, name = s!"t{i}") ∧
        Trial.check Lexicon.standard (text choose n state) = .ok ()) ∧
      ∀ text, Trial.check Lexicon.standard text = .ok () ↔
        ∃ tokens tree, Lexicon.standard.scan text = .ok tokens ∧ Node.parse tokens = .ok tree := by
  refine ⟨?_, fun _ => Trial.check_standard_eq_ok_iff⟩
  intro σ choose n state
  have hdrawn : DrawnGrammar (n - 1) (grammar choose n state).1 := always_grammar choose n state
  have hsize : n - 1 + 1 = max n 1 := by
    omega
  rcases Lexicon.exists_tree_of_writes hdrawn.sound.text_writes hdrawn.content_ne_nil
    hdrawn.namesOf with ⟨tokens, tree, hscan, hparse, hgathers⟩
  rcases hdrawn.gathers hgathers with ⟨hnonterminals, hproductions, hgoal, hterminals⟩
  have hkeys : (Grammar.ofTree tree).productions.keys = (Grammar.ofTree tree).nonterminals.toList :=
    (Grammar.consistent_ofTree hparse).keys_eq
  refine ⟨Analysis.ofTree tree, Lexicon.analyzeText_eq_ok_iff.2 ⟨_, _, hscan, hparse, rfl⟩, ?_,
    hgoal, hkeys, ?_, ?_, Trial.check_of_parse hscan hparse⟩
  · rw [← hsize]
    exact hnonterminals
  · intro entry hentry
    rw [Analysis.grammar_ofTree, hproductions] at hentry
    have hmoderate := hdrawn.moderate entry hentry
    exact ⟨hmoderate.pos, hmoderate.length_le, fun alternative halternative =>
      (hmoderate.small alternative halternative).1⟩
  · intro name hname
    rcases hterminals name hname with ⟨i, hi, rfl⟩
    exact ⟨i, by omega, rfl⟩

end Sample
end BnfGrammar
