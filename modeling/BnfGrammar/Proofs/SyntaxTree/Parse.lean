import BnfGrammar.Proofs.SyntaxTree.Reads
import BnfGrammar.Proofs.SyntaxTree.Sentence
import Mathlib.Data.List.TakeWhile

/-!
# What the parser accepts

Every procedure of the parser reads the words of a piece of an outline and gives back the tree of
that piece. So a list of tokens is parsed exactly if the words before its first end of the input are
those of an outline, and the result is the tree of that outline.
-/

namespace BnfGrammar
namespace Parse

open Outline

/-! ## Alternatives -/

/-- A name behind the first. -/
theorem reads_otherName :
    Reads (do return [← expect .symbol]) (fun name => [Node.word .symbol name])
      (fun name => [(.symbol, name)]) fun _ => True :=
  Reads.map (fun n => [n]) (reads_expect (by decide))

theorem reads_symbolListTail :
    Reads symbolListTail
      (fun others : List String =>
        Node.nest .symbolListTail (others.map fun name => [Node.word .symbol name]))
      (fun others => others.flatMap fun name => [(.symbol, name)])
      (· ∈ Rule.symbolListTail.emptyBefore) :=
  reads_expandTail reads_otherName (fun name => ⟨name, [], rfl⟩) (by decide) trivial
    fun _ _ => trivial

theorem reads_symbolList :
    Reads symbolList
      (fun names : String × List String =>
        Node.expansion .symbolList [Node.word .symbol names.1,
          Node.nest .symbolListTail (names.2.map fun name => [Node.word .symbol name])])
      (fun names => (Side.names names.1 names.2).words)
      (· ∈ Rule.symbolListTail.emptyBefore) := by
  have hothers := fun first : String =>
    reads_symbolListTail.map fun others => [Node.word .symbol first, others]
  have hnames := fun names : String × List String => Sentence.words_names names.1 names.2
  refine reads_expand .symbolList (Reads.congr (reads_expect_bind (by decide) hothers) ?_ ?_)
  · exact fun names => ⟨names, rfl, hnames names⟩
  · exact fun names => ⟨names, rfl, (hnames names).symm⟩

/-- The kind of the word at which an alternative starts. -/
def Side.start : Side → TokenKind
  | .empty _ => .epsilon
  | .names _ _ => .symbol

theorem Side.exists_words (s : Side) :
    ∃ text more, s.words = (Side.start s, text) :: more := by
  cases s with
  | empty text => exact ⟨text, [], rfl⟩
  | names first others => exact ⟨first, others.map (.symbol, ·), rfl⟩

/-- Reads what stands below the expansion of a right-hand side that starts with a kind of word. -/
def content : TokenKind → Reader (List Node)
  | .epsilon => do return [← expect .epsilon]
  | .symbol => do return [← symbolList]
  | _ => fail

theorem reads_content :
    Reads (do content (← get).word.kind) (fun s : Side => [s.content]) Side.words
      (· ∈ Rule.symbolListTail.emptyBefore) := by
  have hempty : Reads (content .epsilon) (fun text => [Node.word .epsilon text])
      (fun text => [(.epsilon, text)]) (· ∈ Rule.symbolListTail.emptyBefore) :=
    (reads_expect (by decide)).map fun n => [n]
  have hnames := reads_symbolList.map fun list => [list]
  refine Reads.choose ?_ Side.exists_words
  intro kind
  cases kind with
  | epsilon =>
      refine hempty.congr ?_ ?_
      · exact fun text => ⟨⟨.empty text, rfl⟩, rfl, rfl⟩
      · rintro ⟨s, hs⟩
        cases s with
        | empty text => exact ⟨text, rfl, rfl⟩
        | names first others => cases hs
  | symbol =>
      refine hnames.congr ?_ ?_
      · exact fun names => ⟨⟨.names names.1 names.2, rfl⟩, rfl, rfl⟩
      · rintro ⟨s, hs⟩
        cases s with
        | empty text => cases hs
        | names first others => exact ⟨(first, others), rfl, rfl⟩
  | semicolon | derives | alsoDerives | endOfInput =>
      -- No alternative starts with such a word.
      refine Reads.fail ?_
      rintro ⟨s, hs⟩
      cases s <;> cases hs

theorem reads_rightHandSide :
    Reads rightHandSide Side.tree Side.words (· ∈ Rule.symbolListTail.emptyBefore) := by
  exact reads_expand .rightHandSide reads_content

/-! ## Production sets -/

/-- A bar and the alternative behind it. -/
theorem reads_other :
    Reads (do let bar ← expect .alsoDerives; let alternative ← rightHandSide; return [bar, alternative])
      (fun other : String × Side => [Node.word .alsoDerives other.1, other.2.tree])
      (fun other => (.alsoDerives, other.1) :: other.2.words)
      (· ∈ Rule.symbolListTail.emptyBefore) := by
  refine Reads.congr
    (reads_expect_bind (by decide) fun bar => reads_rightHandSide.map fun side => [_, side]) ?_ ?_
  · exact fun other => ⟨other, rfl, rfl⟩
  · exact fun other => ⟨other, rfl, rfl⟩

theorem reads_productionSetTail :
    Reads productionSetTail
      (fun others : List (String × Side) =>
        Node.nest .productionSetTail
          (others.map fun other => [Node.word .alsoDerives other.1, other.2.tree]))
      (fun others => others.flatMap fun other => (.alsoDerives, other.1) :: other.2.words)
      (· ∈ Rule.productionSetTail.emptyBefore) :=
  reads_expandTail reads_other (fun other => ⟨other.1, other.2.words, rfl⟩) (by decide)
    (by decide) (by decide)

theorem reads_productionSet :
    Reads productionSet Block.tree Block.opening (· ∈ Rule.productionSetTail.emptyBefore) := by
  -- A bar or a semicolon stands behind the first alternative.
  have hbehind : ∀ (others : List (String × Side)) (kind : TokenKind),
      kind ∈ Rule.productionSetTail.emptyBefore →
      (((others.flatMap fun other => (TokenKind.alsoDerives, other.1) :: other.2.words).map
        Prod.fst).headD kind) ∈ Rule.symbolListTail.emptyBefore := by
    intro others kind hkind
    cases others with
    | nil =>
        obtain rfl := List.mem_singleton.1 hkind
        decide
    | cons other others => exact List.mem_cons_of_mem _ List.mem_cons_self
  refine reads_expand .productionSet (Reads.congr
    (reads_expect_bind (by decide) fun head => reads_expect_bind (by decide) fun colon =>
      reads_rightHandSide.bind (fun first => reads_productionSetTail.map fun others =>
        [_, _, _, others]) hbehind) ?_ ?_)
  · exact fun ⟨head, colon, first, others⟩ => ⟨⟨head, colon, first, others, ""⟩, rfl, rfl⟩
  · exact fun b => ⟨(b.head, b.colon, b.first, b.others), rfl, rfl⟩

/-! ## Whole texts -/

/-- A production set with its semicolon. -/
theorem reads_block :
    Reads (do let set ← productionSet; let stop ← expect .semicolon; return [set, stop])
      (fun b : Block => [b.tree, Node.word .semicolon b.stop]) Block.words fun _ => True := by
  refine Reads.congr
    (reads_productionSet.bind
      (fun b => Reads.map (fun stop => [_, stop]) (reads_expect (by decide))) ?_) ?_ ?_
  · exact fun _ _ _ => List.mem_singleton_self _
  · exact fun ⟨b, stop⟩ => ⟨{ b with stop := stop }, rfl, rfl⟩
  · exact fun b => ⟨(b, b.stop), rfl, rfl⟩

theorem reads_productionListTail :
    Reads productionListTail
      (fun others : List Block =>
        Node.nest .productionListTail
          (others.map fun b => [b.tree, Node.word .semicolon b.stop]))
      (fun others => others.flatMap Block.words) (· ∈ Rule.productionListTail.emptyBefore) :=
  reads_expandTail reads_block (fun b => ⟨b.head, _, rfl⟩) (by decide) trivial fun _ _ => trivial

theorem reads_productionList :
    Reads productionList Outline.list Outline.words (· ∈ Rule.productionListTail.emptyBefore) := by
  refine reads_expand .productionList (Reads.congr
    (reads_productionSet.bind (fun set => reads_expect_bind (by decide) fun stop =>
      reads_productionListTail.map fun others => [_, _, others]) ?_) ?_ ?_)
  · exact fun _ _ _ => List.mem_singleton_self _
  · rintro ⟨b, stop, others⟩
    refine ⟨⟨{ b with stop := stop }, others⟩, rfl, ?_⟩
    simp [Outline.words, Outline.blocks, Block.words, Block.opening]
  · rintro ⟨b, others⟩
    refine ⟨(b, b.stop, others), rfl, ?_⟩
    simp [Outline.words, Outline.blocks, Block.words]

/-- After the production sets comes the end of the input, which need not be a token. -/
theorem grammar_eq (p : Progress) :
    grammar p =
      match productionList (p.enter .grammar) with
      | .ok list q =>
          if q.word.kind = .endOfInput then
            .ok (Node.expansion .grammar [list, Node.word .endOfInput q.word.value]) q.advance.leave
          else .error q.failure q
      | .error e q => .error e q := by
  change EStateM.bind (EStateM.bind productionList fun list => EStateM.bind (expect .endOfInput)
    fun stop => EStateM.pure [list, stop]) _ (p.enter .grammar) = _
  unfold EStateM.bind
  cases productionList (p.enter .grammar) with
  | ok list q =>
      simp only [expect_eq]
      by_cases hkind : q.word.kind = .endOfInput
      · simp only [hkind, if_true]
        rfl
      · simp only [hkind, if_false]
  | error e q => rfl

end Parse

/-! ## The first end of the input -/

namespace Token

variable {finish : Token} {front rest tokens : List Token}

theorem kind_firstEnd (hfinish : finish.kind = .endOfInput) (tokens : List Token) :
    (firstEnd finish tokens).kind = .endOfInput := by
  unfold firstEnd
  cases hfound : tokens.find? fun t => t.kind = .endOfInput with
  | none => exact hfinish
  | some t => simpa using List.find?_some hfound

theorem exists_behind (finish : Token) (tokens : List Token) :
    ∃ rest, tokens = beforeEnd tokens ++ rest ∧ rest.headD finish = firstEnd finish tokens := by
  induction tokens with
  | nil => exact ⟨[], rfl, rfl⟩
  | cons t tokens ih =>
      -- Either the first token is the end, or it is the same as for the other tokens.
      rcases ih with ⟨rest, htokens, hhead⟩
      by_cases hend : t.kind = .endOfInput
      · exact ⟨t :: tokens, by simp [beforeEnd, hend], by simp [firstEnd, hend]⟩
      · refine ⟨rest, ?_, ?_⟩
        · simpa [beforeEnd, hend] using htokens
        · simpa [firstEnd, hend] using hhead

theorem beforeEnd_append (hfront : ∀ t ∈ front, t.kind ≠ .endOfInput)
    (hend : (rest.headD finish).kind = .endOfInput) :
    beforeEnd (front ++ rest) = front ∧ firstEnd finish (front ++ rest) = rest.headD finish := by
  induction front with
  | nil =>
      cases rest with
      | nil => exact ⟨rfl, rfl⟩
      | cons t rest =>
          have hkind : t.kind = .endOfInput := hend
          simp [beforeEnd, firstEnd, hkind]
  | cons t front ih =>
      have hkind := hfront t List.mem_cons_self
      rcases ih fun u hu => hfront u (List.mem_cons_of_mem t hu) with ⟨hbefore, hfirst⟩
      refine ⟨?_, ?_⟩
      · simpa [beforeEnd, hkind] using hbefore
      · simpa [firstEnd, hkind] using hfirst

end Token

/-! ## Whole parses -/

namespace Node

open Parse

variable {tokens : List Token} {tree : Node}

/-- What the parser accepts and what it gives back, in terms of outlines. -/
theorem parse_eq_ok_iff_outline :
    parse tokens = .ok tree ↔
      ∃ o : Outline, (Token.beforeEnd tokens).map Token.word = o.words ∧
        tree = o.tree (Token.firstEnd (Progress.ofTokens tokens).finish tokens).value := by
  have hfinish : ((Progress.ofTokens tokens).enter .grammar).finish.kind = .endOfInput := rfl
  rw [parse, grammar_eq]
  constructor
  · intro h
    cases hlist : productionList ((Progress.ofTokens tokens).enter .grammar) with
    | error e q =>
        rw [hlist] at h
        cases h
    | ok list q =>
        rw [hlist] at h
        rcases reads_productionList.sound hfinish hlist with
          ⟨o, taken, hrest, hkept, hwords, rfl⟩
        -- No word of an outline is an end, so the first end is what comes behind the words.
        have htokens : tokens = taken ++ q.rest := hrest
        have htaken : ∀ t ∈ taken, t.kind ≠ .endOfInput := by
          intro t ht
          exact o.kind_ne_endOfInput t.word (hwords ▸ List.mem_map_of_mem ht)
        by_cases hend : q.word.kind = .endOfInput
        · simp only [hend, if_true] at h
          rcases Token.beforeEnd_append htaken hend with ⟨hbefore, hfirst⟩
          rw [← htokens] at hbefore hfirst
          have hword : q.word = Token.firstEnd (Progress.ofTokens tokens).finish tokens := by
            rw [Progress.word, ← hfirst, hkept]
            rfl
          refine ⟨o, hbefore ▸ hwords, ?_⟩
          rw [← hword]
          cases h
          rfl
        · simp only [hend, if_false] at h
          cases h
  · rintro ⟨o, hwords, rfl⟩
    rcases Token.exists_behind (Progress.ofTokens tokens).finish tokens with ⟨rest, htokens, hhead⟩
    have hend : (rest.headD (Progress.ofTokens tokens).finish).kind = .endOfInput :=
      hhead ▸ Token.kind_firstEnd rfl tokens
    -- The tail of the list may stop there, because the word behind it is an end.
    rcases reads_productionList.complete o hfinish htokens hwords
      (List.mem_singleton.2 hend) with ⟨q, hlist, hrest, hkept⟩
    have hword : q.word = Token.firstEnd (Progress.ofTokens tokens).finish tokens := by
      rw [Progress.word, hrest, hkept]
      exact hhead
    have hkind : q.word.kind = .endOfInput := hword ▸ Token.kind_firstEnd rfl tokens
    rw [hlist, ← hword]
    simp only [hkind, if_true]
    rfl

/-- An outline written out on one line is parsed back. -/
theorem parse_tokens (o : Outline) : parse o.tokens = .ok (o.tree "") := by
  have hfront : ∀ t ∈ o.tokens, t.kind ≠ .endOfInput := by
    intro t ht
    rcases List.mem_map.1 ht with ⟨w, hw, rfl⟩
    exact o.kind_ne_endOfInput w hw
  have hend : (([] : List Token).headD (Progress.ofTokens o.tokens).finish).kind = .endOfInput :=
    rfl
  rcases Token.beforeEnd_append hfront hend with ⟨hbefore, hfirst⟩
  rw [List.append_nil] at hbefore hfirst
  refine parse_eq_ok_iff_outline.2 ⟨o, ?_, ?_⟩
  · rw [hbefore]
    simp [Outline.tokens, Token.word, Function.comp_def]
  · rw [hfirst]
    rfl

/-- The derivation trees of a list of tokens: their leaves are the tokens before the first end of
the input and that end. -/
def DerivationOf (tokens : List Token) (tree : Node) : Prop :=
  tree.tag = .rule .grammar ∧ tree.Derivation ∧
    tree.leaves =
      (Token.beforeEnd tokens ++ [Token.firstEnd (Progress.ofTokens tokens).finish tokens]).map
        fun t => Node.word t.kind t.value

theorem derivationOf_iff_outline :
    DerivationOf tokens tree ↔
      ∃ o : Outline, (Token.beforeEnd tokens).map Token.word = o.words ∧
        tree = o.tree (Token.firstEnd (Progress.ofTokens tokens).finish tokens).value := by
  set stop := Token.firstEnd (Progress.ofTokens tokens).finish tokens with hstop
  have hkind : stop.kind = .endOfInput := Token.kind_firstEnd rfl tokens
  have hleaves : ((Token.beforeEnd tokens ++ [stop]).map fun t => Node.word t.kind t.value) =
      ((Token.beforeEnd tokens).map Token.word).map Outline.Word.leaf ++
        [Node.word .endOfInput stop.value] := by
    simp [Outline.Word.leaf, Token.word, Function.comp_def, hkind]
  constructor
  · rintro ⟨htag, hderivation, htree⟩
    rcases Outline.exists_outline hderivation htag with ⟨o, text, rfl⟩
    rw [hleaves, Outline.leaves_tree] at htree
    -- The words come before the last leaf, which is the end.
    rcases List.append_inj' htree rfl with ⟨hwords, htext⟩
    have hinjective : Function.Injective Outline.Word.leaf := by
      rintro ⟨kind, text⟩ ⟨kind', text'⟩ h
      cases h
      rfl
    refine ⟨o, (List.map_injective_iff.2 hinjective hwords).symm, ?_⟩
    cases htext
    rfl
  · rintro ⟨o, hwords, rfl⟩
    refine ⟨rfl, o.derivation_tree stop.value, ?_⟩
    rw [hleaves, hwords, Outline.leaves_tree]

/-- Only the tokens up to the first end of the input matter, even to a failure. -/
theorem parse_eq_of_visible_eq {tokens' : List Token}
    (h : (Progress.ofTokens tokens).visible = (Progress.ofTokens tokens').visible) :
    parse tokens = parse tokens' := by
  have halike : Alike (Progress.ofTokens tokens) (Progress.ofTokens tokens') := ⟨rfl, rfl, h, rfl⟩
  have hagree := reads_productionList.agree (halike.enter .grammar)
  rw [parse, parse, grammar_eq, grammar_eq]
  generalize productionList ((Progress.ofTokens tokens).enter .grammar) = result at hagree ⊢
  generalize productionList ((Progress.ofTokens tokens').enter .grammar) = result' at hagree ⊢
  cases hagree with
  | error e p q => rfl
  | @ok list q q' hlater =>
      -- Behind the production sets both look for the end of the input at the same word.
      simp only [← hlater.word, ← hlater.failure]
      by_cases hkind : q.word.kind = .endOfInput
      · simp only [hkind, if_true]
      · simp only [hkind, if_false]

theorem visible_beforeEnd_append (tokens later : List Token) :
    (Progress.ofTokens (Token.beforeEnd tokens ++
      Token.firstEnd (Progress.ofTokens tokens).finish tokens :: later)).visible =
        (Progress.ofTokens tokens).visible := by
  set stop := Token.firstEnd (Progress.ofTokens tokens).finish tokens
  set finish := (Progress.ofTokens (Token.beforeEnd tokens ++ stop :: later)).finish
  have hfront : ∀ t ∈ Token.beforeEnd tokens, t.kind ≠ .endOfInput := by
    intro t ht
    simpa using List.mem_takeWhile_imp ht
  have hend : ((stop :: later).headD finish).kind = .endOfInput :=
    Token.kind_firstEnd rfl tokens
  rcases Token.beforeEnd_append hfront hend with ⟨hbefore, hfirst⟩
  exact congrArg₂ (fun front t => front ++ [t]) hbefore hfirst

/-- The parser accepts exactly the sentences of the notation and gives back the one derivation tree
of the tokens up to the first end of the input. What comes behind that end is ignored. -/
theorem parse_recognizes_derivations (tokens : List Token) :
    (∀ tree, parse tokens = .ok tree ↔ DerivationOf tokens tree) ∧
      ((∃ tree, parse tokens = .ok tree) ↔
        (Token.beforeEnd tokens).map Token.kind ∈ Sentence.grammar.matches') ∧
      ((∃! tree, DerivationOf tokens tree) ↔
        (Token.beforeEnd tokens).map Token.kind ∈ Sentence.grammar.matches') ∧
      ∀ later, parse (Token.beforeEnd tokens ++
        Token.firstEnd (Progress.ofTokens tokens).finish tokens :: later) = parse tokens := by
  have hparse : ∀ tree, parse tokens = .ok tree ↔ DerivationOf tokens tree :=
    fun tree => parse_eq_ok_iff_outline.trans derivationOf_iff_outline.symm
  have hkinds : (Token.beforeEnd tokens).map Token.kind =
      ((Token.beforeEnd tokens).map Token.word).map Prod.fst := by
    simp [Token.word, Function.comp_def]
  have hsentence : (∃ tree, parse tokens = .ok tree) ↔
      (Token.beforeEnd tokens).map Token.kind ∈ Sentence.grammar.matches' := by
    rw [hkinds, Sentence.describes_grammar]
    constructor
    · rintro ⟨tree, htree⟩
      rcases parse_eq_ok_iff_outline.1 htree with ⟨o, hwords, _⟩
      exact ⟨o, hwords.symm⟩
    · rintro ⟨o, hwords⟩
      exact ⟨_, parse_eq_ok_iff_outline.2 ⟨o, hwords.symm, rfl⟩⟩
  refine ⟨hparse, hsentence, ?_, ?_⟩
  · -- Two derivation trees are both the one result of the parser.
    rw [← hsentence]
    constructor
    · rintro ⟨tree, htree, _⟩
      exact ⟨tree, (hparse tree).2 htree⟩
    · rintro ⟨tree, htree⟩
      refine ⟨tree, (hparse tree).1 htree, ?_⟩
      intro other hother
      have hok : Except.ok other = Except.ok tree := ((hparse other).2 hother).symm.trans htree
      exact Except.ok.inj hok
  · intro later
    exact parse_eq_of_visible_eq (visible_beforeEnd_append tokens later)

end Node
end BnfGrammar
