import BnfGrammar.Proofs.Lexicon.Standard
import Mathlib.Data.List.Flatten

/-!
# The layout of a text

A text consists of words with gaps of blanks in front of, between and behind them. This file shows
that the gaps do not matter to a scan, except that lines are counted in them: if some gaps are
replaced by others and no gap between two words vanishes, the same words are read.

It is assumed that no word of the lexicon can contain a blank, and that every state at which a word
may end has a kind. Then the search of a table does not look beyond the next blank. So two texts
look the same from a place on if every beginning without a blank of the one is a beginning of the
other, and that is what `Shows` says. Only one direction is needed for a match to be kept: the new
text may show less than the old one did, since words that touched each other may stand apart now.
-/

namespace BnfGrammar

variable {text other word gap gap' rest : List Char} {kind : TokenKind} {lexicon : Lexicon}

/-! ## Texts without blanks -/

/-- The text has no blanks in it. -/
def Solid (text : List Char) : Prop :=
  ∀ c ∈ text, isBlank c = false

/-- Every beginning of a text that has no blanks in it is a beginning of another text. -/
def Shows (text other : List Char) : Prop :=
  ∀ front, front <+: text → Solid front → front <+: other

theorem Solid.eq_nil_of_prefix {front : List Char} (h : Solid front) (hgap : Blank gap)
    (hne : gap ≠ []) (hfront : front <+: gap ++ rest) : front = [] := by
  cases front with
  | nil => rfl
  | cons c front =>
      rcases List.exists_cons_of_ne_nil hne with ⟨d, more, rfl⟩
      obtain rfl : c = d := (List.cons_prefix_cons.1 hfront).1
      have hblank : isBlank c = true := hgap c List.mem_cons_self
      rw [h c List.mem_cons_self] at hblank
      cases hblank

namespace Shows

/-- Nothing is to be seen behind a blank. -/
theorem of_blank (hgap : Blank gap) (hne : gap ≠ []) : Shows (gap ++ rest) other := by
  intro front hfront hsolid
  rw [hsolid.eq_nil_of_prefix hgap hne hfront]
  exact List.nil_prefix

theorem of_blank_end (hgap : Blank gap) : Shows gap other := by
  by_cases hne : gap = []
  · subst hne
    intro front hfront _
    rw [List.prefix_nil.1 hfront]
    exact List.nil_prefix
  · rw [← List.append_nil gap]
    exact of_blank hgap hne

theorem append (h : Shows text other) (word : List Char) :
    Shows (word ++ text) (word ++ other) := by
  intro front hfront hsolid
  rcases List.prefix_or_prefix_of_prefix hfront (List.prefix_append word text) with
    hshort | ⟨more, rfl⟩
  · exact hshort.trans (List.prefix_append word other)
  · have hmore : Solid more := fun c hc => hsolid c (List.mem_append_right word hc)
    exact (List.prefix_append_right_inj word).2
      (h more ((List.prefix_append_right_inj word).1 hfront) hmore)

end Shows

/-! ## Tables that stop at blanks -/

namespace Table

variable {t : Table} {s : StateId} {c : Char}

/-- No blank has a class, and every accepting state has a kind. -/
structure Orderly (t : Table) : Prop where
  classOf_blank : ∀ {c}, isBlank c = true → t.classOf c = none
  exists_kind : ∀ {s}, t.isAccepting s = true → ∃ kind, t.tokenAt s = some kind

namespace Orderly

theorem step_blank (h : t.Orderly) (hc : isBlank c = true) (s : StateId) : t.step s c = none := by
  simp [step, h.classOf_blank hc]

theorem solid_of_acceptsFrom (h : t.Orderly) :
    ∀ {word s}, t.AcceptsFrom s word → Solid word := by
  intro word
  induction word with
  | nil =>
      intro s _ c hc
      cases hc
  | cons c word ih =>
      intro s haccepts
      cases hstep : t.step s c with
      | none => exact absurd haccepts (not_acceptsFrom_cons hstep)
      | some next =>
          have hc : isBlank c = false := by
            by_contra hblank
            rw [h.step_blank (by simpa using hblank) s] at hstep
            cases hstep
          exact List.forall_mem_cons.2 ⟨hc, ih ((acceptsFrom_cons_iff hstep).1 haccepts)⟩

/-- A table that accepts a beginning of a text matches a word there. -/
theorem exists_isMatch (h : t.Orderly) (hbegins : word <+: text) (hne : word ≠ [])
    (haccepts : t.Accepts word) : ∃ found kind, t.IsMatch text found kind := by
  cases hlongest : t.longest Automaton.start text with
  | none => exact absurd haccepts (not_acceptsFrom_of_longest hlongest word hbegins hne)
  | some found =>
      rcases found with ⟨n, last⟩
      rcases longest_eq_some hlongest with ⟨⟨_, _, _, _, _, haccepting⟩, _⟩
      rcases h.exists_kind haccepting with ⟨kind, hkind⟩
      have hmatch := match?_eq_some_iff.2 ⟨last, hlongest, hkind⟩
      rcases Table.exists_isMatch hmatch with ⟨found, hfound, _⟩
      exact ⟨found, kind, hfound⟩

theorem isMatch_of_shows (h : t.Orderly) (hmatch : t.IsMatch text word kind)
    (hbegins : word <+: other) (hshows : Shows other text) : t.IsMatch other word kind where
  begins := hbegins
  ne_nil := hmatch.ne_nil
  ends := hmatch.ends
  longest := by
    intro longer hlonger haccepts
    have hseen := hshows longer hlonger (h.solid_of_acceptsFrom haccepts)
    exact hmatch.longest longer hseen haccepts

theorem not_isMatch_of_shows (h : t.Orderly) (hnone : ∀ word kind, ¬ t.IsMatch text word kind)
    (hshows : Shows other text) (word : List Char) (kind : TokenKind) :
    ¬ t.IsMatch other word kind := by
  intro hmatch
  rcases hmatch.ends with ⟨last, hrun, haccepting, _⟩
  have haccepts : t.Accepts word := ⟨last, hrun, haccepting⟩
  -- The word has no blanks, so it can be seen in the old text and would be accepted there too.
  have hseen := hshows word hmatch.begins (h.solid_of_acceptsFrom haccepts)
  rcases h.exists_isMatch hseen hmatch.ne_nil haccepts with ⟨found, kind', hfound⟩
  exact hnone found kind' hfound

end Orderly

/-- The table of an automaton whose labels hold no blanks stops at blanks. -/
theorem orderly_compile {a : Automaton} (hlabels : ∀ edge ∈ a.edges, Solid edge.label.toList) :
    (compile kind a).Orderly where
  classOf_blank := by
    intro c hc
    by_contra hclass
    rcases Option.ne_none_iff_exists'.1 hclass with ⟨cls, hcls⟩
    rcases Classes.exists_label_of_class a.labels.nodup (classOf_compile ▸ hcls) with
      ⟨label, hlabel, hmem, _⟩
    rcases Automaton.mem_labels_iff.1 hlabel with ⟨edge, hedge, _, rfl⟩
    rw [hlabels edge hedge c hmem] at hc
    cases hc
  exists_kind := fun haccepting => ⟨kind, tokenAt_compile.2 ⟨haccepting, rfl⟩⟩

end Table

namespace Lexicon

/-- All tables stop at blanks. -/
def Orderly (lexicon : Lexicon) : Prop :=
  ∀ table ∈ lexicon.tables, table.Orderly

theorem orderly_ofAutomata {automata : List (TokenKind × Automaton)}
    (hlabels : ∀ entry ∈ automata, ∀ edge ∈ entry.2.edges, Solid edge.label.toList) :
    (ofAutomata automata).Orderly := by
  intro table htable
  rcases List.mem_map.1 htable with ⟨entry, hentry, rfl⟩
  exact Table.orderly_compile (hlabels entry hentry)

theorem orderly_standard : standard.Orderly := by
  have hsolid : (Automaton.grammarWords.all fun entry => entry.2.edges.all fun edge =>
      edge.label.toList.all fun c => !isBlank c) = true := by
    decide +kernel
  simp only [List.all_eq_true, Bool.not_eq_true'] at hsolid
  exact orderly_ofAutomata hsolid

namespace Orderly

theorem solid_of_isMatch (h : lexicon.Orderly) (hmatch : lexicon.IsMatch text word kind) :
    Solid word := by
  rcases hmatch.exists_table with ⟨table, htable, hmatch⟩
  rcases hmatch.ends with ⟨last, hrun, haccepting, _⟩
  exact (h table htable).solid_of_acceptsFrom ⟨last, hrun, haccepting⟩

/-- A word is matched in every text that begins with it and shows nothing else behind it. -/
theorem isMatch_of_shows (h : lexicon.Orderly) (hmatch : lexicon.IsMatch text word kind)
    (hbegins : word <+: other) (hshows : Shows other text) : lexicon.IsMatch other word kind := by
  rcases hmatch with ⟨before, table, after, htables, hmatch, hbefore⟩
  have htable : table ∈ lexicon.tables := htables ▸ List.mem_append_right before List.mem_cons_self
  have hother := (h table htable).isMatch_of_shows hmatch hbegins hshows
  refine ⟨before, table, after, htables, hother, ?_⟩
  intro earlier hearlier
  have hmem : earlier ∈ lexicon.tables := htables ▸ List.mem_append_left _ hearlier
  exact (h earlier hmem).not_isMatch_of_shows (hbefore earlier hearlier) hshows

end Orderly
end Lexicon

/-! ## Layouts -/

/-- The characters of some tokens with a gap in front of each. -/
def spread (gaps : List (List Char)) (tokens : List Token) : List Char :=
  (List.zipWith (fun gap token => gap ++ token.value.toList) gaps tokens).flatten

/-- A text consists of the words of some tokens with blanks in front of each. The last token is the
end of the input, which has no characters, so its gap is what stands behind the last word. -/
structure Lays (gaps : List (List Char)) (tokens : List Token) (text : List Char) : Prop where
  length_eq : gaps.length = tokens.length
  blank : ∀ gap ∈ gaps, Blank gap
  text_eq : text = spread gaps tokens

/-- Gaps that stand for others keep words apart: between two words a gap may only be empty if the
other one is. The first and the last gap do not stand between words. -/
def KeepsApart (gaps gaps' : List (List Char)) : Prop :=
  ∀ i, 0 < i → i + 1 < gaps.length → gaps'[i]? = some [] → gaps[i]? = some []

/-- The tokens with their lines counted in some gaps. -/
def relined (gaps : List (List Char)) (tokens : List Token) : List Token :=
  tokens.mapIdx fun i token =>
    { token with line := Scanner.lineAfter ((gaps.take (i + 1)).flatten.count '\n') }

theorem spread_cons (gap : List Char) (gaps : List (List Char)) (token : Token)
    (tokens : List Token) :
    spread (gap :: gaps) (token :: tokens) = gap ++ (token.value.toList ++ spread gaps tokens) := by
  simp [spread]

theorem spread_concat {gaps : List (List Char)} {tokens : List Token}
    (hlength : gaps.length = tokens.length) (gap : List Char) (line : UInt32) :
    spread (gaps ++ [gap]) (tokens ++ [Token.finish line]) = spread gaps tokens ++ gap := by
  simp [spread, List.zipWith_append hlength, Token.finish]

theorem relined_concat {gaps : List (List Char)} {tokens : List Token}
    (hlength : gaps.length = tokens.length) (gap : List Char) (line : UInt32) :
    relined (gaps ++ [gap]) (tokens ++ [Token.finish line]) =
      relined gaps tokens ++
        [Token.finish (Scanner.lineAfter (gaps.flatten.count '\n' + gap.count '\n'))] := by
  rw [relined, List.mapIdx_concat, ← hlength]
  refine congrArg₂ (· ++ ·) ?_ ?_
  · refine List.mapIdx_eq_mapIdx_iff.2 fun i hi => ?_
    rw [List.take_append_of_le_length (by omega)]
  · simp [Token.finish, List.take_of_length_le, List.count_append]

namespace Tile

variable {gaps : List (List Char)} {tiles : List Tile} {lines : Nat}

/-- Tiles with new gaps, their lines counted in these. -/
def relay : Nat → List (List Char) → List Tile → List Tile
  | lines, gap :: gaps, tile :: tiles =>
      ⟨gap, { tile.token with line := Scanner.lineAfter (lines + gap.count '\n') }⟩ ::
        relay (lines + gap.count '\n') gaps tiles
  | _, _, _ => []

theorem texts_relay (lines : Nat) (gaps : List (List Char)) (tiles : List Tile) :
    texts (relay lines gaps tiles) = spread gaps (tiles.map token) := by
  induction tiles generalizing gaps lines with
  | nil => cases gaps <;> rfl
  | cons tile tiles ih =>
      cases gaps with
      | nil => rfl
      | cons gap gaps => simp [relay, texts_cons, ih, spread, word]

theorem lineFeeds_relay (hlength : gaps.length = tiles.length) :
    lineFeeds (relay lines gaps tiles) = gaps.flatten.count '\n' := by
  induction tiles generalizing gaps lines with
  | nil => simp [List.length_eq_zero_iff.1 hlength, relay, lineFeeds]
  | cons tile tiles ih =>
      cases gaps with
      | nil => cases hlength
      | cons gap gaps =>
          have hrest : gaps.length = tiles.length := by simpa using hlength
          simp [relay, lineFeeds_cons, ih hrest, List.count_append]

theorem map_token_relay (hlength : gaps.length = tiles.length) :
    (relay 0 gaps tiles).map token = relined gaps (tiles.map token) := by
  -- By induction on the tiles, for any number of line feeds in front of them.
  have hlines : ∀ {tiles : List Tile} {gaps : List (List Char)} (lines : Nat),
      gaps.length = tiles.length → (relay lines gaps tiles).map token =
        (tiles.map token).mapIdx fun i token =>
          { token with
            line := Scanner.lineAfter (lines + (gaps.take (i + 1)).flatten.count '\n') } := by
    intro tiles
    induction tiles with
    | nil =>
        intro gaps lines hlength
        simp [List.length_eq_zero_iff.1 hlength, relay]
    | cons tile tiles ih =>
        intro gaps lines hlength
        cases gaps with
        | nil => cases hlength
        | cons gap gaps =>
            have hrest : gaps.length = tiles.length := by simpa using hlength
            simp [relay, ih _ hrest, List.mapIdx_cons, List.count_append, Nat.add_assoc]
  simpa [relined] using hlines 0 hlength

end Tile

namespace Lexicon

variable {gaps gaps' : List (List Char)} {tiles : List Tile} {tokens : List Token} {lines : Nat}

/-- Behind new gaps no more is to be seen than behind the old ones. -/
theorem shows_relay (gap : List Char) (lines : Nat) (hgap' : Blank gap')
    (hlength : gaps.length = tiles.length) (hblank : ∀ gap ∈ gaps, Blank gap)
    (hkeeps : ∀ i : Nat, gaps[i]? = some [] → (tiles.map Tile.gap)[i]? = some []) :
    Shows (Tile.texts (Tile.relay lines gaps tiles) ++ gap') (Tile.texts tiles ++ gap) := by
  induction tiles generalizing gaps lines with
  | nil =>
      rw [List.length_eq_zero_iff.1 hlength]
      exact Shows.of_blank_end hgap'
  | cons tile tiles ih =>
      cases gaps with
      | nil => cases hlength
      | cons first gaps =>
          rcases List.forall_mem_cons.1 hblank with ⟨hfirst, hothers⟩
          rw [Tile.relay, Tile.texts_cons, Tile.texts_cons, List.append_assoc, List.append_assoc]
          by_cases hne : first = []
          · -- The old gap is empty too, so the words touch in both texts.
            have hold : tile.gap = [] := by simpa using hkeeps 0 (by simp [hne])
            have hrest : gaps.length = tiles.length := by simpa using hlength
            have hlater := ih (lines + first.count '\n') hrest hothers
              fun i hi => hkeeps (i + 1) hi
            simpa [hne, hold, Tile.word] using hlater.append tile.word
          · exact Shows.of_blank hfirst hne

/-- Tiles with new gaps fit if they keep words apart. -/
theorem Fits.relay (h : lexicon.Orderly) (hgap' : Blank gap') (hfits : lexicon.Fits gap lines tiles)
    (hlength : gaps.length = tiles.length) (hblank : ∀ gap ∈ gaps, Blank gap)
    (hkeeps : ∀ i, 0 < i → gaps[i]? = some [] → (tiles.map Tile.gap)[i]? = some [])
    (lines' : Nat) : lexicon.Fits gap' lines' (Tile.relay lines' gaps tiles) := by
  induction tiles generalizing gaps lines lines' with
  | nil =>
      rw [List.length_eq_zero_iff.1 hlength]
      trivial
  | cons tile tiles ih =>
      cases gaps with
      | nil => cases hlength
      | cons first gaps =>
          rcases hfits with ⟨_, hword, hmatch, _, hlater⟩
          rcases List.forall_mem_cons.1 hblank with ⟨hfirst, hothers⟩
          have hrest : gaps.length = tiles.length := by simpa using hlength
          have hbehind : ∀ i : Nat, gaps[i]? = some [] → (tiles.map Tile.gap)[i]? = some [] :=
            fun i hi => hkeeps (i + 1) (Nat.succ_pos i) hi
          have hshows := shows_relay gap (lines' + first.count '\n') hgap' hrest hothers hbehind
          refine ⟨hfirst, hword, ?_, rfl, ?_⟩
          · exact h.isMatch_of_shows hmatch (List.prefix_append _ _) (hshows.append tile.word)
          · exact ih hlater hrest hothers (fun i _ => hbehind i) _

/-! ## The gaps of a scanned text -/

theorem Fits.lays (hfits : lexicon.Fits gap lines tiles) (hgap : Blank gap) (line : UInt32) :
    Lays (tiles.map Tile.gap ++ [gap]) (tiles.map Tile.token ++ [Token.finish line])
      (Tile.texts tiles ++ gap) := by
  induction tiles generalizing lines with
  | nil => exact ⟨rfl, by simpa using hgap, by simp [Tile.texts, spread, Token.finish]⟩
  | cons tile tiles ih =>
      rcases hfits with ⟨hfirst, _, _, _, hlater⟩
      have hrest := ih hlater
      refine ⟨by simp, List.forall_mem_cons.2 ⟨hfirst, hrest.blank⟩, ?_⟩
      rw [List.map_cons, List.map_cons, List.cons_append, List.cons_append, spread_cons,
        ← hrest.text_eq, Tile.texts_cons, List.append_assoc, List.append_assoc]
      rfl

/-- Blanks in front of something else are found in one way only. -/
theorem append_blank_inj {a b : List Char} {c d : Char} {x y : List Char} (ha : Blank a)
    (hb : Blank b) (hc : isBlank c = false) (hd : isBlank d = false)
    (h : a ++ c :: x = b ++ d :: y) : a = b := by
  have htake := congrArg (List.takeWhile isBlank) h
  simpa [List.takeWhile_append_of_pos ha, List.takeWhile_append_of_pos hb, hc, hd] using htake

/-- The gaps of a scanned text are determined by its words. -/
theorem Fits.gaps_eq (hfits : lexicon.Fits gap lines tiles) {line : UInt32}
    (hlays : Lays gaps (tiles.map Tile.token ++ [Token.finish line]) (Tile.texts tiles ++ gap)) :
    gaps = tiles.map Tile.gap ++ [gap] := by
  induction tiles generalizing gaps lines with
  | nil =>
      rcases List.length_eq_one_iff.1 hlays.length_eq with ⟨only, rfl⟩
      have htext := hlays.text_eq
      simp only [Tile.texts, spread, Token.finish] at htext
      simpa using htext.symm
  | cons tile tiles ih =>
      -- The first word begins with no blank, so both first gaps end in front of it.
      rcases hfits with ⟨hfirst, ⟨c, more, hword, hc⟩, _, _, hlater⟩
      cases gaps with
      | nil => cases hlays.length_eq
      | cons first gaps =>
          rcases List.forall_mem_cons.1 hlays.blank with ⟨hfirst', hothers⟩
          have htext := hlays.text_eq
          have hvalue : tile.token.value.toList = c :: more := hword
          rw [List.map_cons, List.cons_append, spread_cons, Tile.texts_cons, hword, hvalue,
            List.append_assoc] at htext
          have hgaps : tile.gap = first := append_blank_inj hfirst hfirst' hc hc htext
          subst hgaps
          have hrest : Tile.texts tiles ++ gap =
              spread gaps (tiles.map Tile.token ++ [Token.finish line]) := by
            simpa using htext
          have hlength : gaps.length = (tiles.map Tile.token ++ [Token.finish line]).length :=
            Nat.succ.inj hlays.length_eq
          rw [ih hlater ⟨hlength, hothers, hrest⟩]
          rfl

/-! ## Scans of layouts -/

variable {text text' : String}

theorem exists_tiles_of_scan (h : lexicon.scan text = .ok tokens) :
    ∃ tiles gap, text.toList = Tile.texts tiles ++ gap ∧ Blank gap ∧ lexicon.Fits gap 0 tiles ∧
      tokens = tiles.map Tile.token ++
        [Token.finish (Scanner.lineAfter (Tile.lineFeeds tiles + gap.count '\n'))] := by
  rcases exists_fits lexicon 0 text.toList with
    ⟨tiles, gap, rest, htext, hgap, hfits, rfl | hfails⟩
  · rw [List.append_nil] at htext hfits
    exact ⟨tiles, gap, htext, hgap, hfits,
      Except.ok.inj (h.symm.trans (scan_of_end htext hgap hfits))⟩
  · rw [scan_of_fails htext hgap hfits hfails] at h
    cases h

/-- A text with the words of another one is read as these if no gap between two words vanishes. -/
theorem Orderly.scan_of_lays (h : lexicon.Orderly) (hscan : lexicon.scan text = .ok tokens)
    (hlays : Lays gaps tokens text.toList) (hlays' : Lays gaps' tokens text'.toList)
    (hkeeps : KeepsApart gaps gaps') : lexicon.scan text' = .ok (relined gaps' tokens) := by
  rcases exists_tiles_of_scan hscan with ⟨tiles, gap, htext, hgap, hfits, rfl⟩
  rw [htext] at hlays
  obtain rfl := hfits.gaps_eq hlays
  rcases List.eq_nil_or_concat' gaps' with rfl | ⟨front, last, rfl⟩
  · cases hlays'.length_eq.trans (List.length_append)
  · have hlength : front.length = tiles.length := by simpa using hlays'.length_eq
    have hlength' : front.length = (tiles.map Tile.token).length := by simpa using hlength
    have hblank : ∀ gap ∈ front ++ [last], Blank gap := hlays'.blank
    have hlast : Blank last := hblank last (by simp)
    have hkeeps' : ∀ i : Nat, 0 < i → front[i]? = some [] →
        (tiles.map Tile.gap)[i]? = some [] := by
      intro i hi hempty
      have hbound : i < tiles.length := hlength ▸ (List.getElem?_eq_some_iff.1 hempty).1
      have hold := hkeeps i hi (by simpa using hbound)
        (by rwa [List.getElem?_append_left (hlength ▸ hbound)])
      rwa [List.getElem?_append_left (by simpa using hbound)] at hold
    have hrelaid := hfits.relay h hlast hlength (fun g hg => hblank g (by simp [hg])) hkeeps' 0
    have htext' : text'.toList = Tile.texts (Tile.relay 0 front tiles) ++ last := by
      rw [hlays'.text_eq, spread_concat hlength', Tile.texts_relay]
    rw [scan_of_end htext' hlast hrelaid, relined_concat hlength', Tile.map_token_relay hlength,
      Tile.lineFeeds_relay hlength]

theorem exists_lays_of_scan (hscan : lexicon.scan text = .ok tokens) :
    (∃ front line, tokens = front ++ [Token.finish line]) ∧
      ∃ gaps, Lays gaps tokens text.toList := by
  rcases exists_tiles_of_scan hscan with ⟨tiles, gap, htext, hgap, hfits, rfl⟩
  exact ⟨⟨_, _, rfl⟩, _, htext ▸ hfits.lays hgap _⟩

/-! ## Rejoined words -/

theorem relined_of_not_mem (h : ∀ gap ∈ gaps, '\n' ∉ gap) :
    relined gaps tokens = tokens.map fun token => { token with line := 1 } := by
  have hnone : ∀ n : Nat, (gaps.take n).flatten.count '\n' = 0 := by
    intro n
    rw [List.count_eq_zero, List.mem_flatten]
    rintro ⟨gap, hgap, hmem⟩
    exact h gap (List.mem_of_mem_take hgap) hmem
  refine List.ext_getElem (by simp [relined]) ?_
  intro i _ _
  simp only [relined, List.getElem_mapIdx, List.getElem_map, hnone]
  rfl

/-- The gaps of words that are joined by single blanks: there is none in front of the first. -/
def singleBlanks (words : Nat) : List (List Char) :=
  [] :: List.replicate words [' ']

theorem eq_of_mem_singleBlanks {words : Nat} (h : gap ∈ singleBlanks words) :
    gap = [] ∨ gap = [' '] :=
  (List.mem_cons.1 h).imp_right List.eq_of_mem_replicate

theorem keepsApart_singleBlanks (gaps : List (List Char)) (words : Nat) :
    KeepsApart gaps (singleBlanks words) := by
  intro i hi _ hempty
  have hmem : [] ∈ List.replicate words [' '] := by
    rw [singleBlanks, List.getElem?_cons, if_neg (Nat.ne_of_gt hi)] at hempty
    exact List.mem_of_getElem? hempty
  cases List.eq_of_mem_replicate hmem

theorem spread_singleBlanks (token : Token) (tokens : List Token) :
    spread (singleBlanks tokens.length) (token :: tokens) =
      (" ".intercalate ((token :: tokens).map Token.value)).toList := by
  rw [String.toList_intercalate, List.map_map]
  induction tokens generalizing token with
  | nil => simp [singleBlanks, spread]
  | cons next tokens ih =>
      have hlater := ih next
      rw [singleBlanks, spread_cons, List.nil_append] at hlater
      rw [List.map_cons, List.map_cons, List.intercalate_cons_cons, ← List.map_cons, ← hlater,
        singleBlanks, List.length_cons, List.replicate_succ, spread_cons, spread_cons]
      simp

/-- The words of a scanned text, rejoined by single blanks, are read as these words on line 1. -/
theorem Orderly.scan_rejoined (h : lexicon.Orderly) (hscan : lexicon.scan text = .ok tokens) :
    lexicon.scan (" ".intercalate (tokens.map Token.value)) =
      .ok (tokens.map fun token => { token with line := 1 }) := by
  rcases exists_lays_of_scan hscan with ⟨⟨front, line, hfront⟩, gaps, hlays⟩
  cases tokens with
  | nil => simp at hfront
  | cons token tokens =>
      have hblank : ∀ gap ∈ singleBlanks tokens.length, Blank gap ∧ '\n' ∉ gap := by
        intro gap hgap
        rcases eq_of_mem_singleBlanks hgap with rfl | rfl <;> decide
      have hrejoined : Lays (singleBlanks tokens.length) (token :: tokens)
          (" ".intercalate ((token :: tokens).map Token.value)).toList :=
        ⟨by simp [singleBlanks], fun gap hgap => (hblank gap hgap).1,
          (spread_singleBlanks token tokens).symm⟩
      calc
        lexicon.scan (" ".intercalate ((token :: tokens).map Token.value)) =
            .ok (relined (singleBlanks tokens.length) (token :: tokens)) :=
          h.scan_of_lays hscan hlays hrejoined (keepsApart_singleBlanks gaps tokens.length)
        _ = .ok ((token :: tokens).map fun token => { token with line := 1 }) :=
          congrArg Except.ok (relined_of_not_mem fun gap hgap => (hblank gap hgap).2)

end Lexicon

/-! ## Carriage returns -/

/-- A text with a carriage return put in front of every line feed. -/
def withReturns (text : List Char) : List Char :=
  text.flatMap fun c => if c = '\n' then ['\r', '\n'] else [c]

theorem withReturns_append (a b : List Char) :
    withReturns (a ++ b) = withReturns a ++ withReturns b :=
  List.flatMap_append

theorem withReturns_of_solid (h : Solid word) : withReturns word = word := by
  have hsame : ∀ c ∈ word, (if c = '\n' then ['\r', '\n'] else [c]) = [c] := by
    intro c hc
    refine if_neg ?_
    rintro rfl
    exact absurd (h _ hc) (by decide)
  rw [withReturns, List.flatMap_congr hsame, List.flatMap_singleton']

theorem blank_withReturns (h : Blank gap) : Blank (withReturns gap) := by
  intro c hc
  rcases List.mem_flatMap.1 hc with ⟨d, hd, hc⟩
  split at hc
  · simp only [List.mem_cons, List.not_mem_nil, or_false] at hc
    rcases hc with rfl | rfl <;> rfl
  · rw [List.mem_singleton.1 hc]
    exact h d hd

theorem count_withReturns (text : List Char) :
    (withReturns text).count '\n' = text.count '\n' := by
  induction text with
  | nil => rfl
  | cons c text ih =>
      rw [← List.singleton_append, withReturns_append, List.count_append, List.count_append, ih]
      by_cases hc : c = '\n'
      · subst hc
        rfl
      · simp [withReturns, hc]

theorem eq_nil_of_withReturns (h : withReturns gap = []) : gap = [] := by
  cases gap with
  | nil => rfl
  | cons c gap =>
      rw [withReturns, List.flatMap_cons] at h
      split at h <;> simp at h

theorem withReturns_spread {tokens : List Token}
    (hsolid : ∀ token ∈ tokens, Solid token.value.toList) (gaps : List (List Char)) :
    withReturns (spread gaps tokens) = spread (gaps.map withReturns) tokens := by
  induction tokens generalizing gaps with
  | nil => cases gaps <;> rfl
  | cons token tokens ih =>
      rcases List.forall_mem_cons.1 hsolid with ⟨hword, hlater⟩
      cases gaps with
      | nil => rfl
      | cons gap gaps =>
          rw [List.map_cons, spread_cons, spread_cons, withReturns_append, withReturns_append,
            withReturns_of_solid hword, ih hlater]

theorem relined_withReturns (gaps : List (List Char)) (tokens : List Token) :
    relined (gaps.map withReturns) tokens = relined gaps tokens := by
  have hcount : ∀ n : Nat, ((gaps.map withReturns).take n).flatten.count '\n' =
      (gaps.take n).flatten.count '\n' := by
    intro n
    rw [← List.map_take, List.count_flatten, List.count_flatten, List.map_map]
    exact congrArg List.sum (List.map_congr_left fun gap _ => count_withReturns gap)
  simp only [relined, hcount]

namespace Lexicon

variable {tokens : List Token} {gaps gaps' : List (List Char)} {text text' : String}
  {tiles : List Tile} {lines : Nat}

theorem Orderly.solid_of_fits (h : lexicon.Orderly) (hfits : lexicon.Fits gap lines tiles) :
    ∀ tile ∈ tiles, Solid tile.word := by
  induction tiles generalizing lines with
  | nil => simp
  | cons tile tiles ih =>
      rcases hfits with ⟨_, _, hmatch, _, hlater⟩
      exact List.forall_mem_cons.2 ⟨h.solid_of_isMatch hmatch, ih hlater⟩

theorem Orderly.solid_of_scan (h : lexicon.Orderly) (hscan : lexicon.scan text = .ok tokens) :
    ∀ token ∈ tokens, Solid token.value.toList := by
  rcases exists_tiles_of_scan hscan with ⟨tiles, gap, _, _, hfits, rfl⟩
  simp only [List.forall_mem_append, List.forall_mem_singleton, List.forall_mem_map]
  exact ⟨h.solid_of_fits hfits, by simp [Solid, Token.finish]⟩

/-- Carriage returns in front of line feeds change nothing. -/
theorem Orderly.scan_withReturns (h : lexicon.Orderly) (hscan : lexicon.scan text = .ok tokens) :
    lexicon.scan (String.ofList (withReturns text.toList)) = .ok tokens := by
  rcases exists_lays_of_scan hscan with ⟨_, gaps, hlays⟩
  have hlays' : Lays (gaps.map withReturns) tokens
      (String.ofList (withReturns text.toList)).toList := by
    refine ⟨by simpa using hlays.length_eq, ?_, ?_⟩
    · simp only [List.forall_mem_map]
      exact fun gap hgap => blank_withReturns (hlays.blank gap hgap)
    · rw [String.toList_ofList, hlays.text_eq, withReturns_spread (h.solid_of_scan hscan)]
  have hkeeps : KeepsApart gaps (gaps.map withReturns) := by
    intro i _ _ hempty
    rw [List.getElem?_map] at hempty
    rcases Option.map_eq_some_iff.1 hempty with ⟨gap, hgap, hnil⟩
    rw [hgap, eq_nil_of_withReturns hnil]
  -- The text itself is one of its layouts, so its tokens have their lines counted in its gaps.
  have hsame : lexicon.scan text = .ok (relined gaps tokens) :=
    h.scan_of_lays hscan hlays hlays fun _ _ _ hempty => hempty
  calc
    lexicon.scan (String.ofList (withReturns text.toList)) =
        .ok (relined (gaps.map withReturns) tokens) := h.scan_of_lays hscan hlays hlays' hkeeps
    _ = .ok (relined gaps tokens) := by rw [relined_withReturns]
    _ = lexicon.scan text := hsame.symm
    _ = .ok tokens := hscan

/-! ## All layouts -/

/-- Lines are exact if the gaps hold less than 2 ^ 32 - 1 line feeds. -/
theorem toNat_line_relined (hlines : 1 + gaps.flatten.count '\n' < UInt32.size) {i : Nat}
    {token : Token} (htoken : (relined gaps tokens)[i]? = some token) :
    token.line.toNat = 1 + (gaps.take (i + 1)).flatten.count '\n' := by
  rw [relined, List.getElem?_mapIdx] at htoken
  rcases Option.map_eq_some_iff.1 htoken with ⟨old, _, rfl⟩
  have hfewer : (gaps.take (i + 1)).flatten.count '\n' ≤ gaps.flatten.count '\n' :=
    (List.take_sublist (i + 1) gaps).flatten.count_le '\n'
  exact Scanner.toNat_lineAfter (by omega)

/-- Scans depend on the layout of a text only through lines. It is assumed that the tables of the
lexicon stop at blanks, as those of the grammar notation and of all automata without blanks in their
labels do. If some gaps take the place of those of a scanned text and no gap between two words
vanishes, the same words are read, with their lines counted in the new gaps. So the words may be
rejoined by single blanks, and carriage returns may be put in front of all line feeds. -/
theorem scan_eq_relined :
    (∀ automata : List (TokenKind × Automaton),
      (∀ entry ∈ automata, ∀ edge ∈ entry.2.edges, Solid edge.label.toList) →
        (ofAutomata automata).Orderly) ∧
      standard.Orderly ∧
      ∀ lexicon : Lexicon, lexicon.Orderly → ∀ text tokens, lexicon.scan text = .ok tokens →
        ((∃ front line, tokens = front ++ [Token.finish line]) ∧
          ∃ gaps, Lays gaps tokens text.toList) ∧
        (∀ gaps gaps', Lays gaps tokens text.toList → gaps'.length = tokens.length →
          (∀ gap ∈ gaps', Blank gap) → KeepsApart gaps gaps' →
            lexicon.scan (String.ofList (spread gaps' tokens)) = .ok (relined gaps' tokens) ∧
            (1 + gaps'.flatten.count '\n' < UInt32.size →
              ∀ i token, (relined gaps' tokens)[i]? = some token →
                token.line.toNat = 1 + (gaps'.take (i + 1)).flatten.count '\n')) ∧
        lexicon.scan (" ".intercalate (tokens.map Token.value)) =
          .ok (tokens.map fun token => { token with line := 1 }) ∧
        lexicon.scan (String.ofList (withReturns text.toList)) = .ok tokens := by
  refine ⟨fun _ hlabels => orderly_ofAutomata hlabels, orderly_standard, ?_⟩
  intro lexicon h text tokens hscan
  refine ⟨exists_lays_of_scan hscan, ?_, h.scan_rejoined hscan, h.scan_withReturns hscan⟩
  intro gaps gaps' hlays hlength hblank hkeeps
  have hlays' : Lays gaps' tokens (String.ofList (spread gaps' tokens)).toList :=
    ⟨hlength, hblank, String.toList_ofList⟩
  exact ⟨h.scan_of_lays hscan hlays hlays' hkeeps,
    fun hlines _ _ htoken => toNat_line_relined hlines htoken⟩

/-- The keyword touches the name behind it. Both are read after a line feed is put in between. -/
theorem scan_eq_relined_touching :
    standard.scan "a:epsilonb;" = .ok [⟨.symbol, "a", 1⟩, ⟨.derives, ":", 1⟩,
        ⟨.epsilon, "epsilon", 1⟩, ⟨.symbol, "b", 1⟩, ⟨.semicolon, ";", 1⟩, Token.finish 1] ∧
      standard.scan "\na: epsilon\nb;" = .ok [⟨.symbol, "a", 2⟩, ⟨.derives, ":", 2⟩,
        ⟨.epsilon, "epsilon", 2⟩, ⟨.symbol, "b", 3⟩, ⟨.semicolon, ";", 3⟩, Token.finish 3] := by
  have hscan : standard.scan "a:epsilonb;" = .ok [⟨.symbol, "a", 1⟩, ⟨.derives, ":", 1⟩,
      ⟨.epsilon, "epsilon", 1⟩, ⟨.symbol, "b", 1⟩, ⟨.semicolon, ";", 1⟩, Token.finish 1] := by
    decide +kernel
  rcases scan_eq_relined with ⟨_, horderly, hall⟩
  rcases hall standard horderly _ _ hscan with ⟨_, hrelaid, _⟩
  have hlays : Lays [[], [], [], [], [], []] [⟨.symbol, "a", 1⟩, ⟨.derives, ":", 1⟩,
      ⟨.epsilon, "epsilon", 1⟩, ⟨.symbol, "b", 1⟩, ⟨.semicolon, ";", 1⟩, Token.finish 1]
      "a:epsilonb;".toList :=
    ⟨rfl, by simp [Blank], by decide⟩
  have hkeeps : KeepsApart [[], [], [], [], [], []] [['\n'], [], [' '], ['\n'], [], []] := by
    intro i _ hi _
    exact List.getElem?_replicate_of_lt (n := 6) (Nat.lt_of_succ_lt hi)
  exact ⟨hscan, (hrelaid _ _ hlays rfl (by simp [Blank, isBlank]) hkeeps).1⟩

end Lexicon
end BnfGrammar
