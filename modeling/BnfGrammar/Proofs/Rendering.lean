import BnfGrammar.Proofs.Lexicon.Stored
import BnfGrammar.Proofs.Lookahead.Occurring
import BnfGrammar.Proofs.Reading
import BnfGrammar.Report.Structured

/-!
# Rendered lookaheads

Lookaheads are shown as texts: a terminal as its name, the end of the input and the empty lookahead
as two texts of their own. Names and these texts share one space, and the end marker even has a
FIRST set beside those of the symbols. For texts in the grammar notation nothing gets mixed up: a
symbol of the analysis is a word that was read as a name, so it is spelled with letters and digits
and does not begin with the keyword. Hence different lookaheads of an analysis are shown as
different texts, and the keys of each row that is written for machines are different too.
-/

namespace BnfGrammar

variable {text : String} {tokens : List Token} {tree : Node} {a : Analysis} {la la' : Lookahead}
  {name : String}

/-! ## Symbols of scanned texts -/

theorem Spelled.isName (h : Spelled (.symbol, name)) : IsName name := by
  generalize hword : ((.symbol, name) : Outline.Word) = w at h
  cases h with
  | @sign kind c hsign =>
      obtain rfl : TokenKind.symbol = kind := congrArg Prod.fst hword
      unfold signKind? at hsign
      split at hsign <;> cases hsign
  | epsilon _ => cases congrArg Prod.fst hword
  | name hname =>
      cases hword
      exact hname

theorem Lexicon.isName_of_isSymbol (hscan : standard.scan text = .ok tokens)
    (hparse : Node.parse tokens = .ok tree) (hsymbol : (Grammar.ofTree tree).IsSymbol name) :
    IsName name := by
  rcases Grammar.exists_token_of_isSymbol hparse hsymbol with ⟨t, ht, hkind, rfl⟩
  rcases exists_spelled_of_scan hscan with ⟨front, line, rfl, hspelled⟩
  rcases List.mem_append.1 ht with hfront | hlast
  · have hword := hspelled t hfront
    rw [Token.word, hkind] at hword
    exact hword.isName
  · rw [List.mem_singleton.1 hlast] at hkind
    cases hkind

theorem IsName.ne_endMarker (h : IsName name) : name ≠ Lookahead.endMarker := by
  rintro rfl
  exact absurd h (by decide)

theorem IsName.ne_epsilon (h : IsName name) : name ≠ Lookahead.text .epsilon := by
  rintro rfl
  exact absurd h (by decide)

/-! ## Texts of lookaheads -/

/-- A terminal has a name that is read as one word. -/
def Lookahead.Named : Lookahead → Prop
  | .terminal name => IsName name
  | _ => True

theorem Lookahead.Named.text_inj (h : la.Named) (h' : la'.Named) (htext : la.text = la'.text) :
    la = la' := by
  cases la with
  | finish =>
      cases la' with
      | finish => rfl
      | epsilon => exact absurd htext (by decide)
      | terminal name => exact absurd htext.symm (IsName.ne_endMarker h')
  | epsilon =>
      cases la' with
      | finish => exact absurd htext (by decide)
      | epsilon => rfl
      | terminal name => exact absurd htext.symm (IsName.ne_epsilon h')
  | terminal name =>
      cases la' with
      | finish => exact absurd htext (IsName.ne_endMarker h)
      | epsilon => exact absurd htext (IsName.ne_epsilon h)
      | terminal name' => exact congrArg Lookahead.terminal htext

/-! ## Lookaheads of an analysis -/

/-- A lookahead is a member of a FIRST set or of a FOLLOW set, or it has a cell of the prediction
table or a conflict. -/
def Analysis.Occurs (a : Analysis) (la : Lookahead) : Prop :=
  (∃ name set, a.first? name = some set ∧ la ∈ set) ∨
    (∃ name set, a.follow? name = some set ∧ la ∈ set) ∨
    (∃ row ∈ a.predictions.rows.toList, la ∈ row.2) ∨
    ∃ c ∈ a.predictions.conflicts, c.lookahead = la

theorem Analysis.mem_firstLookaheads_of_occurs (h : (ofTree tree).Occurs la) :
    la ∈ (Grammar.ofTree tree).firstLookaheads := by
  have honly : PredictionTable.Only (· ∈ (Grammar.ofTree tree).firstLookaheads)
      (ofTree tree).predictions :=
    PredictionTable.only_build _ fun _ _ _ => Grammar.mem_firstLookaheads_of_mem_firstPlus
  rcases h with ⟨name, set, hset, hla⟩ | ⟨name, set, hset, hla⟩ | ⟨row, hrow, hla⟩ | ⟨c, hc, rfl⟩
  · rw [← SetTable.members_of_find? hset] at hla
    exact (Grammar.ofTree tree).firstSets_within.member_mem hla
  · rw [← SetTable.members_of_find? hset] at hla
    exact Grammar.mem_firstLookaheads_of_follow hla
  · have hcell : (ofTree tree).predictions.get? row.1 la = some row.2[la] := by
      rw [PredictionTable.get?_eq_bind, ArrivalMap.find?_eq_some_iff.2 hrow]
      exact Std.ExtTreeMap.getElem?_eq_some_getElem hla
    exact honly.cell hcell
  · exact honly.conflict c hc

/-- All lookaheads of the analysis of a text are named. -/
theorem Lexicon.named_of_occurs (hscan : standard.scan text = .ok tokens)
    (hparse : Node.parse tokens = .ok tree) (h : (Analysis.ofTree tree).Occurs la) : la.Named := by
  rcases Grammar.mem_firstLookaheads_iff.1 (Analysis.mem_firstLookaheads_of_occurs h) with
    rfl | rfl | ⟨t, ht, rfl⟩
  · trivial
  · trivial
  · exact isName_of_isSymbol hscan hparse (Or.inr ht)

/-- The keys of a row are different if its lookaheads are named. -/
theorem PredictionTable.nodup_keys_rowToJson {row : Std.ExtTreeMap Lookahead Nat}
    (h : ∀ la ∈ row, Lookahead.Named la) :
    ∃ fields, rowToJson row = .object fields ∧ (fields.map Prod.fst).Nodup := by
  refine ⟨_, rfl, ?_⟩
  rw [List.map_map, List.map_map, List.Nodup, List.pairwise_map]
  refine row.distinct_keys_toList.imp_of_mem ?_
  intro cell cell' hcell hcell' hne hsame
  have hnamed : ∀ cell ∈ row.toList, cell.1.Named := by
    intro cell hcell
    refine h cell.1 (Std.ExtTreeMap.mem_iff_isSome_getElem?.2 ?_)
    rw [Std.ExtTreeMap.mem_toList_iff_getElem?_eq_some.1 hcell]
    rfl
  have htext : cell.1.text = cell'.1.text := Text.intact_inj.1 hsame
  exact hne (Std.compare_eq_iff_eq.2 ((hnamed _ hcell).text_inj (hnamed _ hcell') htext))

/-- In the analysis of a text, all symbols are spelled with letters and digits and do not begin with
the keyword for the empty alternative, so none of them is shown as the end of the input or the empty
lookahead is. The FIRST sets of the end marker and of the terminals are what they stand for,
different lookaheads are shown as different texts, and a row that is written for machines has no key
twice. -/
theorem Lexicon.rendering_unambiguous (h : standard.analyzeText text = .ok a) :
    (∀ name, a.grammar.IsSymbol name → name ≠ "" ∧ (∀ c ∈ name.toList, c.isAlphanum = true) ∧
        (name.toList.take 7).map Char.toLower ≠ "epsilon".toList) ∧
      (∀ name, a.grammar.IsSymbol name → name ≠ "$" ∧ name ≠ "EPSILON") ∧
      a.first? "$" = some {.finish} ∧
      (∀ t ∈ a.grammar.terminals, a.first? t = some {.terminal t}) ∧
      (∀ la la', a.Occurs la → a.Occurs la' → la.text = la'.text → la = la') ∧
      ∀ row ∈ a.predictions.rows.toList,
        ∃ fields, PredictionTable.rowToJson row.2 = .object fields ∧
          (fields.map Prod.fst).Nodup := by
  rcases analyzeText_eq_ok_iff.1 h with ⟨tokens, tree, hscan, hparse, rfl⟩
  have hnames : ∀ name, (Grammar.ofTree tree).IsSymbol name → IsName name := fun _ hsymbol =>
    isName_of_isSymbol hscan hparse hsymbol
  have hg := Grammar.consistent_ofTree hparse
  have hunmarked : ¬ (Grammar.ofTree tree).IsSymbol Lookahead.endMarker := fun hsymbol =>
    (hnames _ hsymbol).ne_endMarker rfl
  have hnamed : ∀ la, (Analysis.ofTree tree).Occurs la → la.Named := fun _ hoccurs =>
    named_of_occurs hscan hparse hoccurs
  refine ⟨?_, ?_, Grammar.find?_firstSets_endMarker hg hunmarked, ?_, ?_, ?_⟩
  · intro name hsymbol
    have hname := hnames name hsymbol
    exact ⟨hname.ne_empty, hname.letters, of_decide_eq_false hname.not_epsilon⟩
  · exact fun name hsymbol => ⟨(hnames name hsymbol).ne_endMarker, (hnames name hsymbol).ne_epsilon⟩
  · exact fun t ht => Grammar.find?_firstSets_terminal hg hunmarked ht
  · exact fun la la' hla hla' htext => (hnamed la hla).text_inj (hnamed la' hla') htext
  · intro row hrow
    exact PredictionTable.nodup_keys_rowToJson fun la hla =>
      hnamed la (Or.inr (Or.inr (Or.inl ⟨row, hrow, hla⟩)))

/-- `S : EOF | EOF S | EPSILON;`, where a terminal is named like the end of the input and two
alternatives begin with it. -/
def finishing : Outline where
  first := ⟨"S", ":", .names "EOF" [], [("|", .names "EOF" ["S"]), ("|", .empty "EPSILON")], ";"⟩
  others := []

theorem Lexicon.rendering_unambiguous_finishing :
    standard.analyzeText "S: EOF|EOF S|EPSILON;" = .ok (Analysis.ofTree (finishing.tree "")) ∧
      (Analysis.ofTree (finishing.tree "")).first? "EOF" = some {.terminal "EOF"} ∧
      (∃ la, (Analysis.ofTree (finishing.tree "")).Occurs la ∧ la.text = "EOF") ∧
      ∀ la, (Analysis.ofTree (finishing.tree "")).Occurs la → la.text = "EOF" →
        la = .terminal "EOF" := by
  have hscan : standard.scan "S: EOF|EOF S|EPSILON;" =
      .ok (finishing.tokens ++ [Token.finish 1]) := by
    decide +kernel
  have hparse : Node.parse (finishing.tokens ++ [Token.finish 1]) = .ok (finishing.tree "") := by
    refine (Node.parse_finish_eq_ok_iff ?_).2 ⟨finishing, by decide, rfl⟩
    decide
  have hread := analyzeText_eq_ok_iff.2 ⟨_, _, hscan, hparse, rfl⟩
  rcases rendering_unambiguous hread with ⟨_, _, _, hterminals, htexts, _⟩
  have hterminal : "EOF" ∈ (Grammar.ofTree (finishing.tree "")).terminals := by
    decide
  have hoccurs : (Analysis.ofTree (finishing.tree "")).Occurs (.terminal "EOF") :=
    Or.inl ⟨"EOF", _, hterminals "EOF" hterminal, LookaheadSet.mem_singleton.2 rfl⟩
  exact ⟨hread, hterminals "EOF" hterminal, ⟨_, hoccurs, rfl⟩,
    fun la hla htext => htexts la _ hla hoccurs htext⟩

end BnfGrammar
