import BnfGrammar.Proofs.Analysis
import BnfGrammar.Proofs.Grammar.Productions
import BnfGrammar.Proofs.Lexicon.Spaced
import BnfGrammar.Source

/-!
# Grammars written down

How production sets are written in the grammar notation, with a free choice of blanks between words
and of cases in the keyword for the empty alternative. This file shows that a text that was written
this way is read back: scanning gives its words, parsing their tree, and the analysis has exactly
the production sets that were written down.
-/

namespace BnfGrammar

open Outline (Word Side Block)

variable {alternative : Alternative} {alternatives : List Alternative} {sets : List ProductionSet}
  {words : List Word} {text : String}

/-! ## Writing -/

/-- The words of an alternative: its names, or the keyword in any mix of cases if it has none. -/
inductive WritesAlternative : Alternative → List Word → Prop
  | empty {text : String} : spellsEpsilon text.toList = true →
      WritesAlternative [] [(.epsilon, text)]
  | names (first : String) (others : List String) :
      WritesAlternative (first :: others) ((first :: others).map (.symbol, ·))

/-- The words of some alternatives, with bars between them. -/
inductive WritesAlternatives : List Alternative → List Word → Prop
  | last {alternative : Alternative} {words : List Word} : WritesAlternative alternative words →
      WritesAlternatives [alternative] words
  | cons {alternative : Alternative} {alternatives : List Alternative} {words later : List Word} :
      WritesAlternative alternative words → WritesAlternatives alternatives later →
        WritesAlternatives (alternative :: alternatives) (words ++ (.alsoDerives, "|") :: later)

/-- The words of some production sets. -/
inductive WritesSets : List ProductionSet → List Word → Prop
  | nil : WritesSets [] []
  | cons {lhs : String} {alternatives : List Alternative} {sets : List ProductionSet}
      {words later : List Word} : WritesAlternatives alternatives words → WritesSets sets later →
        WritesSets ((lhs, alternatives) :: sets)
          ((.symbol, lhs) :: (.derives, ":") :: words ++ (.semicolon, ";") :: later)

/-- A text writes production sets down: it has their words with blanks in front of, between and
behind them. Some blank stands between two names. -/
def Writes (text : String) (sets : List ProductionSet) : Prop :=
  ∃ pieces gap, text.toList = Piece.texts pieces ++ gap ∧
    WritesSets sets (pieces.map Piece.word) ∧ (∀ piece ∈ pieces, Blank piece.gap) ∧ Blank gap ∧
    pieces.IsChain fun piece next =>
      piece.word.1 = .symbol → next.word.1 = .symbol → next.gap ≠ []

/-! ## Outlines of written texts -/

theorem WritesAlternative.exists_side (h : WritesAlternative alternative words) :
    ∃ side : Side, side.words = words ∧ side.alternative = alternative := by
  cases h with
  | @empty text _ => exact ⟨.empty text, rfl, rfl⟩
  | names first others => exact ⟨.names first others, rfl, rfl⟩

theorem WritesAlternatives.exists_sides (h : WritesAlternatives alternatives words) :
    ∃ (first : Side) (others : List (String × Side)),
      (first.words ++ others.flatMap fun other => (.alsoDerives, other.1) :: other.2.words) =
          words ∧
        (first :: others.map Prod.snd).map Side.alternative = alternatives := by
  induction h with
  | last halternative =>
      rcases halternative.exists_side with ⟨side, rfl, rfl⟩
      exact ⟨side, [], by simp, rfl⟩
  | cons halternative _ ih =>
      rcases halternative.exists_side with ⟨side, rfl, rfl⟩
      rcases ih with ⟨first, others, rfl, rfl⟩
      exact ⟨side, ("|", first) :: others, by simp, by simp⟩

theorem WritesSets.exists_blocks (h : WritesSets sets words) :
    ∃ blocks : List Block, blocks.flatMap Block.words = words ∧ blocks.map Block.set = sets := by
  induction h with
  | nil => exact ⟨[], rfl, rfl⟩
  | @cons lhs _ _ _ _ halternatives _ ih =>
      rcases halternatives.exists_sides with ⟨first, others, rfl, rfl⟩
      rcases ih with ⟨blocks, rfl, rfl⟩
      refine ⟨⟨lhs, ":", first, others, ";"⟩ :: blocks, ?_, ?_⟩
      · simp [Block.words, Block.opening]
      · simp [Block.set, Block.sides]

/-! ## Words of written texts -/

/-- The kind of a word is that of its text, and no keyword follows a name. -/
structure Regular (words : List Word) : Prop where
  spelled : ∀ w ∈ words, Spelled w
  chain : words.IsChain fun w next => w.1 = .symbol → next.1 ≠ .epsilon

/-- Signs may stand anywhere. -/
theorem Regular.join {later : List Word} {c : Char} {kind : TokenKind} (h : Regular words)
    (hsign : signKind? c = some kind) (hlater : Regular later) :
    Regular (words ++ (kind, String.singleton c) :: later) where
  spelled := by
    simp only [List.forall_mem_append, List.forall_mem_cons]
    exact ⟨h.spelled, .sign hsign, hlater.spelled⟩
  chain := by
    have hkind : kind ≠ .symbol ∧ kind ≠ .epsilon := by
      unfold signKind? at hsign
      split at hsign <;> cases hsign <;> simp
    simp [List.isChain_append, List.isChain_cons, h.chain, hlater.chain, hkind]

/-- All names in some production sets are read as one word. -/
def NamesOf (sets : List ProductionSet) : Prop :=
  ∀ set ∈ sets, IsName set.1 ∧ ∀ alternative ∈ set.2, ∀ name ∈ alternative, IsName name

instance (sets : List ProductionSet) : Decidable (NamesOf sets) :=
  inferInstanceAs (Decidable (∀ set ∈ sets,
    IsName set.1 ∧ ∀ alternative ∈ set.2, ∀ name ∈ alternative, IsName name))

theorem WritesAlternative.regular (h : WritesAlternative alternative words)
    (hnames : ∀ name ∈ alternative, IsName name) : Regular words := by
  cases h with
  | empty hspells => exact ⟨by simpa using Spelled.epsilon hspells, .singleton _⟩
  | names first others =>
      refine ⟨fun w hw => ?_, ?_⟩
      · rcases List.mem_map.1 hw with ⟨name, hname, rfl⟩
        exact .name (hnames name hname)
      · rw [List.isChain_map]
        exact (List.pairwise_of_forall fun _ _ => by simp).isChain

theorem WritesAlternatives.regular (h : WritesAlternatives alternatives words)
    (hnames : ∀ alternative ∈ alternatives, ∀ name ∈ alternative, IsName name) :
    Regular words := by
  induction h with
  | last halternative => exact halternative.regular (hnames _ List.mem_cons_self)
  | cons halternative _ ih =>
      rcases List.forall_mem_cons.1 hnames with ⟨hfirst, hothers⟩
      exact (halternative.regular hfirst).join (c := '|') rfl (ih hothers)

theorem WritesSets.regular (h : WritesSets sets words) (hnames : NamesOf sets) :
    Regular words := by
  induction h with
  | nil => exact ⟨by simp, .nil⟩
  | cons halternatives _ ih =>
      rcases List.forall_mem_cons.1 hnames with ⟨⟨hlhs, hfirst⟩, hothers⟩
      -- The left-hand side, and behind its colon the alternatives up to the semicolon.
      have hname : Regular [(.symbol, _)] := ⟨by simpa using Spelled.name hlhs, .singleton _⟩
      have hclosed := (halternatives.regular hfirst).join (c := ';') rfl (ih hothers)
      exact hname.join (c := ':') rfl hclosed

/-! ## Reading -/

/-- A text that writes production sets down is read as their words. -/
theorem Lexicon.scan_of_writes (h : Writes text sets) (hnames : NamesOf sets) :
    ∃ front line, standard.scan text = .ok (front ++ [Token.finish line]) ∧
      WritesSets sets (front.map Token.word) := by
  rcases h with ⟨pieces, gap, htext, hwrites, hblank, hgap, hnamesApart⟩
  have hregular := hwrites.regular hnames
  have hapart : pieces.IsChain Piece.Apart := by
    have hchain := hregular.chain
    rw [List.isChain_map] at hchain
    rw [List.isChain_iff_getElem] at hchain hnamesApart ⊢
    intro i hi hname hnext
    -- No keyword follows a name, so the next word is a name.
    exact hnamesApart i hi hname (hnext.resolve_right (hchain i hi hname))
  have hspelled : ∀ piece ∈ pieces, Blank piece.gap ∧ Spelled piece.word := fun piece hpiece =>
    ⟨hblank piece hpiece, hregular.spelled _ (List.mem_map_of_mem hpiece)⟩
  rcases tokens_pieces hgap 0 0 hspelled hapart with ⟨front, line, htokens, hwords⟩
  rw [← htext] at htokens
  exact ⟨front, line, htokens, hwords.symm ▸ hwrites⟩

/-- A text that writes production sets down is read back: its analysis has the first left-hand side
as its goal and the production sets as its grammar. -/
theorem Lexicon.analyzeText_of_writes (h : Writes text sets) (hsets : sets ≠ [])
    (hnames : NamesOf sets) :
    ∃ a, standard.analyzeText text = .ok a ∧ a.goal = sets.head?.map Prod.fst ∧
      a.grammar.Gathers sets := by
  rcases scan_of_writes h hnames with ⟨front, line, hscan, hwrites⟩
  rcases hwrites.exists_blocks with ⟨blocks, hblocks, rfl⟩
  cases blocks with
  | nil => exact absurd rfl hsets
  | cons first others =>
      let o : Outline := ⟨first, others⟩
      have hfront : front.map Token.word = o.words := hblocks.symm
      have hkinds : ∀ t ∈ front, t.kind ≠ .endOfInput := fun t ht =>
        o.kind_ne_endOfInput t.word (hfront ▸ List.mem_map_of_mem ht)
      have hend : ([Token.finish line].headD (Token.finish line)).kind = .endOfInput := rfl
      have hbefore := (Token.beforeEnd_append hkinds hend).1
      obtain ⟨stop, hparse⟩ : ∃ stop, Node.parse (front ++ [Token.finish line]) =
          .ok (o.tree stop) :=
        ⟨_, Node.parse_eq_ok_iff_outline.2 ⟨o, hbefore.symm ▸ hfront, rfl⟩⟩
      have hread : standard.parseText text = .ok (o.tree stop) := by
        rw [parseText, hscan]
        exact congrArg (Except.mapError SourceError.parse) hparse
      have hgathers := Grammar.gathers_ofTree o stop
      refine ⟨Analysis.ofTree (o.tree stop), ?_, hgathers.goal?_eq, hgathers⟩
      rw [analyzeText, hread]
      rfl

/-- Three production sets, two of them for one left-hand side, and a name used before its own. -/
def written : List ProductionSet :=
  [("S", [["T", "a"], []]), ("T", [["b2"]]), ("S", [["T"]])]

/-- The sets of `written` with few blanks and an oddly spelled keyword. -/
def writtenText : String :=
  "S:T a|EpSiLoN;\n\tT :b2;S: T\r\n; "

theorem analyzeText_of_writes_written :
    Writes writtenText written ∧ written ≠ [] ∧ NamesOf written ∧
      ∃ a, Lexicon.standard.analyzeText writtenText = .ok a ∧ a.goal = some "S" ∧
        a.grammar.Gathers written := by
  have hwrites : Writes writtenText written := by
    refine ⟨[⟨[], .symbol, "S"⟩, ⟨[], .derives, ":"⟩, ⟨[], .symbol, "T"⟩, ⟨[' '], .symbol, "a"⟩,
      ⟨[], .alsoDerives, "|"⟩, ⟨[], .epsilon, "EpSiLoN"⟩, ⟨[], .semicolon, ";"⟩,
      ⟨['\n', '\t'], .symbol, "T"⟩, ⟨[' '], .derives, ":"⟩, ⟨[], .symbol, "b2"⟩,
      ⟨[], .semicolon, ";"⟩, ⟨[], .symbol, "S"⟩, ⟨[], .derives, ":"⟩, ⟨[' '], .symbol, "T"⟩,
      ⟨['\r', '\n'], .semicolon, ";"⟩], [' '], by decide, ?_, by decide, by decide, by decide⟩
    exact .cons (.cons (.names "T" ["a"]) (.last (.empty (by decide))))
      (.cons (.last (.names "b2" [])) (.cons (.last (.names "T" [])) .nil))
  have hsets : written ≠ [] := by
    decide
  have hnames : NamesOf written := by
    decide
  exact ⟨hwrites, hsets, hnames, Lexicon.analyzeText_of_writes hwrites hsets hnames⟩

end BnfGrammar
