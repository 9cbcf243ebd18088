import BnfGrammar.Lexicon.Scanner
import BnfGrammar.Proofs.Table.Match

/-!
# Texts as tiles

A tile is a token with the blanks in front of it. Scanning covers a text with tiles from the left:
each token is the match of the first table that matches at its place. At the end there are only
blanks, or blanks and a character at which no table matches.

Such a cover exists for every text and determines the result of the scan, so the two ways in which a
scan ends are described by covers alone. Nothing is assumed about the tables.
-/

namespace BnfGrammar

/-- The text consists of blanks. -/
def Blank (text : List Char) : Prop :=
  ∀ c ∈ text, isBlank c = true

instance (text : List Char) : Decidable (Blank text) :=
  decidable_of_iff (text.all isBlank = true) List.all_eq_true

/-! ## Matches of a lexicon -/

namespace Lexicon

variable {lexicon : Lexicon} {text word : List Char} {kind : TokenKind}

/-- The first table that matches at the front of a text matches the word. -/
def IsMatch (lexicon : Lexicon) (text word : List Char) (kind : TokenKind) : Prop :=
  ∃ before table after, lexicon.tables = before ++ table :: after ∧ table.IsMatch text word kind ∧
    ∀ earlier ∈ before, ∀ word kind, ¬ earlier.IsMatch text word kind

/-- No table matches at the front of a text. -/
def Stuck (lexicon : Lexicon) (text : List Char) : Prop :=
  ∀ table ∈ lexicon.tables, ∀ word kind, ¬ table.IsMatch text word kind

theorem match?_eq_none_iff : lexicon.match? text = none ↔ lexicon.Stuck text := by
  simp only [match?, List.findSome?_eq_none_iff, Table.match?_eq_none_iff, Stuck]

theorem isMatch_iff :
    lexicon.IsMatch text word kind ↔
      word <+: text ∧ lexicon.match? text = some (word.length, kind) := by
  rw [match?, List.findSome?_eq_some_iff]
  simp only [Table.match?_eq_none_iff]
  constructor
  · rintro ⟨before, table, after, htables, hmatch, hbefore⟩
    rcases Table.isMatch_iff.1 hmatch with ⟨hbegins, hfound⟩
    exact ⟨hbegins, before, table, after, htables, hfound, hbefore⟩
  · rintro ⟨hbegins, before, table, after, htables, hfound, hbefore⟩
    exact ⟨before, table, after, htables, Table.isMatch_iff.2 ⟨hbegins, hfound⟩, hbefore⟩

theorem IsMatch.exists_cons (h : lexicon.IsMatch text word kind) : ∃ c more, word = c :: more := by
  rcases h with ⟨_, table, _, _, hmatch, _⟩
  exact List.exists_cons_of_ne_nil hmatch.ne_nil

theorem IsMatch.exists_table (h : lexicon.IsMatch text word kind) :
    ∃ table ∈ lexicon.tables, table.IsMatch text word kind := by
  rcases h with ⟨before, table, after, htables, hmatch, _⟩
  exact ⟨table, htables ▸ List.mem_append_right before List.mem_cons_self, hmatch⟩

theorem exists_isMatch (h : ¬ lexicon.Stuck text) :
    ∃ word rest kind, text = word ++ rest ∧ word ≠ [] ∧ lexicon.IsMatch text word kind := by
  cases hfound : lexicon.match? text with
  | none => exact absurd (match?_eq_none_iff.1 hfound) h
  | some found =>
      rcases List.findSome?_eq_some_iff.1 hfound with ⟨before, table, after, htables, htable, _⟩
      rcases Table.exists_isMatch htable with ⟨word, hword, hlength⟩
      rcases hword.begins with ⟨rest, rfl⟩
      refine ⟨word, rest, found.2, rfl, hword.ne_nil, isMatch_iff.2 ⟨hword.begins, ?_⟩⟩
      rw [hfound, hlength]

/-- No word begins at the front of a text, and what stands there is no blank. -/
def Fails (lexicon : Lexicon) (text : List Char) : Prop :=
  lexicon.Stuck text ∧ ∃ c rest, text = c :: rest ∧ isBlank c = false

end Lexicon

/-! ## Steps of a scanner -/

namespace Scanner

variable {s after : Scanner} {token : Token} {e : LexError} {lexicon : Lexicon}
  {text word gap rest : List Char} {kind : TokenKind} {c : Char} {cursor lines : Nat}

theorem takeWord_nil (h : s.rest = []) :
    s.takeWord = (.ok (Token.finish s.line), { s with finished := true }) := by
  simp [takeWord, h]

theorem takeWord_cons (h : s.rest = c :: rest) :
    s.takeWord =
      match s.lexicon.match? (c :: rest) with
      | some (length, kind) =>
          (.ok ⟨kind, String.ofList ((c :: rest).take length), s.line⟩,
            { s with rest := (c :: rest).drop length, cursor := s.cursor + length })
      | none => (.error s.failure, { s with finished := true }) := by
  rcases s with ⟨lexicon, text, cursor, line, finished⟩
  obtain rfl : text = c :: rest := h
  rfl

/-- A step that does not finish the scanner reads at least one character. -/
theorem length_rest_takeWord (h : s.takeWord.2.finished = false) :
    s.takeWord.2.rest.length < s.rest.length := by
  cases htext : s.rest with
  | nil => simp [takeWord_nil htext] at h
  | cons c rest =>
      rw [takeWord_cons htext] at h ⊢
      cases hfound : s.lexicon.match? (c :: rest) with
      | none => simp [hfound] at h
      | some found =>
          have hmoves : ¬ s.lexicon.Stuck (c :: rest) := by
            rw [← Lexicon.match?_eq_none_iff, hfound]
            simp
          rcases Lexicon.exists_isMatch hmoves with ⟨word, _, kind, _, hne, hmatch⟩
          have hlength := (Lexicon.isMatch_iff.1 hmatch).2
          rw [hfound] at hlength
          obtain rfl : found = (word.length, kind) := Option.some.inj hlength
          have hpositive := List.length_pos_of_ne_nil hne
          simp only [List.length_drop, List.length_cons]
          omega

theorem length_rest_skipBlanks (s : Scanner) : s.skipBlanks.rest.length ≤ s.rest.length :=
  (List.dropWhile_sublist isBlank).length_le

theorem outcomesWithin_of_finished (h : s.finished = true) (n : Nat) :
    outcomesWithin n s = [] := by
  cases n with
  | zero => rfl
  | succ n => simp [outcomesWithin, next, h]

theorem outcomesWithin_succ (h : s.finished = false) (n : Nat) :
    outcomesWithin (n + 1) s =
      s.skipBlanks.takeWord.1 :: outcomesWithin n s.skipBlanks.takeWord.2 := by
  simp [outcomesWithin, next, h]

/-- More steps than characters make no difference. -/
theorem outcomesWithin_eq_outcomes :
    ∀ {n : Nat} {s : Scanner}, s.rest.length < n → outcomesWithin n s = s.outcomes := by
  -- By induction on the steps. Both runs make the same first step, if the scanner makes one.
  have hsame : ∀ (n m : Nat) (s : Scanner), s.rest.length < n → s.rest.length < m →
      outcomesWithin n s = outcomesWithin m s := by
    intro n
    induction n with
    | zero => exact fun _ _ h => absurd h (Nat.not_lt_zero _)
    | succ n ih =>
        intro m s hn hm
        rcases Nat.exists_eq_add_one_of_ne_zero (Nat.ne_zero_of_lt hm) with ⟨m, rfl⟩
        cases hfinished : s.finished with
        | true => rw [outcomesWithin_of_finished hfinished, outcomesWithin_of_finished hfinished]
        | false =>
            rw [outcomesWithin_succ hfinished, outcomesWithin_succ hfinished]
            cases hlater : s.skipBlanks.takeWord.2.finished with
            | true => rw [outcomesWithin_of_finished hlater, outcomesWithin_of_finished hlater]
            | false =>
                have hless := length_rest_takeWord hlater
                have hblanks := length_rest_skipBlanks s
                rw [ih m _ (by omega) (by omega)]
  exact fun {n s} h => hsame n _ s h (Nat.lt_succ_self _)

theorem outcomes_of_finished (h : s.finished = true) : s.outcomes = [] :=
  outcomesWithin_of_finished h _

/-- The first step of a scanner and the run after it. -/
theorem outcomes_eq (h : s.finished = false) :
    s.outcomes = s.skipBlanks.takeWord.1 :: s.skipBlanks.takeWord.2.outcomes := by
  rw [outcomes, outcomesWithin_succ h]
  cases hlater : s.skipBlanks.takeWord.2.finished with
  | true => rw [outcomesWithin_of_finished hlater, outcomes_of_finished hlater]
  | false =>
      have hless := length_rest_takeWord hlater
      have hblanks := length_rest_skipBlanks s
      rw [outcomesWithin_eq_outcomes (by omega)]

theorem tokens_of_finished (h : s.finished = true) : s.tokens = .ok [] := by
  rw [tokens, outcomes_of_finished h, List.mapM_nil]
  rfl

theorem tokens_of_token (h : s.finished = false)
    (hstep : s.skipBlanks.takeWord = (.ok token, after)) :
    s.tokens = after.tokens.map (token :: ·) := by
  rw [tokens, outcomes_eq h, hstep, List.mapM_cons, tokens]
  rfl

theorem tokens_of_failure (h : s.finished = false)
    (hstep : s.skipBlanks.takeWord = (.error e, after)) : s.tokens = .error e := by
  rw [tokens, outcomes_eq h, hstep, List.mapM_cons]
  rfl

/-! ## Runs of a scanner -/

/-- The number of a line with some line feeds in front of it. -/
def lineAfter (lines : Nat) : UInt32 :=
  UInt32.ofNat (1 + lines)

/-- Line numbers are exact in texts with less than 2 ^ 32 - 1 line feeds. -/
theorem toNat_lineAfter (h : 1 + lines < UInt32.size) : (lineAfter lines).toNat = 1 + lines :=
  UInt32.toNat_ofNat_of_lt' h

theorem lineAfter_add (m n : Nat) : lineAfter m + UInt32.ofNat n = lineAfter (m + n) := by
  rw [lineAfter, ← UInt32.ofNat_add, Nat.add_assoc]
  rfl

/-- A scanner within a text, behind some characters and some line feeds. -/
def within (lexicon : Lexicon) (text : List Char) (cursor lines : Nat) : Scanner where
  lexicon := lexicon
  rest := text
  cursor := cursor
  line := lineAfter lines

theorem skipBlanks_of_head (hhead : ∀ c ∈ text.head?, isBlank c = false) :
    (within lexicon text cursor lines).skipBlanks = within lexicon text cursor lines := by
  have htake : text.takeWhile isBlank = [] := by
    cases text with
    | nil => rfl
    | cons c rest => simp [hhead c rfl]
  have hdrop : text.dropWhile isBlank = text := by
    cases text with
    | nil => rfl
    | cons c rest => simp [hhead c rfl]
  simp [within, skipBlanks, htake, hdrop]

theorem skipBlanks_cons (hc : isBlank c = true) :
    (within lexicon (c :: text) cursor lines).skipBlanks =
      (within lexicon text (cursor + 1) (lines + [c].count '\n')).skipBlanks := by
  have hcount : (c :: text.takeWhile isBlank).count '\n' =
      [c].count '\n' + (text.takeWhile isBlank).count '\n' := by
    rw [← List.count_append]
    rfl
  simp only [within, skipBlanks, List.takeWhile_cons, List.dropWhile_cons, hc, if_true, hcount,
    lineAfter_add, List.length_cons, Nat.add_assoc, Nat.add_comm 1]

/-- Blanks only move a scanner. -/
theorem tokens_gap (hgap : Blank gap) :
    ∀ cursor lines, (within lexicon (gap ++ text) cursor lines).tokens =
      (within lexicon text (cursor + gap.length) (lines + gap.count '\n')).tokens := by
  induction gap with
  | nil => exact fun _ _ => rfl
  | cons c gap ih =>
      intro cursor lines
      have hc : isBlank c = true := hgap c List.mem_cons_self
      have hrest := ih (fun d hd => hgap d (List.mem_cons_of_mem c hd)) (cursor + 1)
        (lines + [c].count '\n')
      -- The scanner is the same once it has skipped the blanks.
      have hmoved : (within lexicon (c :: gap ++ text) cursor lines).tokens =
          (within lexicon (gap ++ text) (cursor + 1) (lines + [c].count '\n')).tokens := by
        rw [tokens, tokens, outcomes_eq rfl, List.cons_append, skipBlanks_cons hc,
          ← outcomes_eq rfl]
      have hcount : (c :: gap).count '\n' = [c].count '\n' + gap.count '\n' := by
        rw [← List.count_append]
        rfl
      rw [hmoved, hrest, hcount, List.length_cons, Nat.add_assoc, Nat.add_assoc, Nat.add_comm 1]

theorem tokens_nil :
    (within lexicon [] cursor lines).tokens = .ok [Token.finish (lineAfter lines)] := by
  have hhere : (within lexicon [] cursor lines).skipBlanks = within lexicon [] cursor lines :=
    skipBlanks_of_head fun c hc => by cases hc
  have hstep : (within lexicon [] cursor lines).skipBlanks.takeWord =
      (.ok (Token.finish (lineAfter lines)),
        { within lexicon [] cursor lines with finished := true }) := by
    rw [hhere]
    exact takeWord_nil rfl
  rw [tokens_of_token rfl hstep, tokens_of_finished rfl]
  rfl

theorem tokens_end (hgap : Blank gap) :
    (within lexicon gap cursor lines).tokens =
      .ok [Token.finish (lineAfter (lines + gap.count '\n'))] := by
  rw [← List.append_nil gap, tokens_gap hgap, tokens_nil, List.append_nil]

theorem tokens_word (hmatch : lexicon.IsMatch (word ++ rest) word kind)
    (hhead : ∀ c ∈ word.head?, isBlank c = false) :
    (within lexicon (word ++ rest) cursor lines).tokens =
      (within lexicon rest (cursor + word.length) lines).tokens.map
        (⟨kind, String.ofList word, lineAfter lines⟩ :: ·) := by
  rcases hmatch.exists_cons with ⟨c, more, rfl⟩
  have hhere : (within lexicon (c :: more ++ rest) cursor lines).skipBlanks =
      within lexicon (c :: more ++ rest) cursor lines :=
    skipBlanks_of_head hhead
  have hfound : lexicon.match? (c :: (more ++ rest)) = some ((c :: more).length, kind) :=
    (Lexicon.isMatch_iff.1 hmatch).2
  have hstep : (within lexicon (c :: more ++ rest) cursor lines).skipBlanks.takeWord =
      (.ok ⟨kind, String.ofList (c :: more), lineAfter lines⟩,
        within lexicon rest (cursor + (c :: more).length) lines) := by
    have htext : (within lexicon (c :: more ++ rest) cursor lines).rest = c :: (more ++ rest) := rfl
    have htake : (c :: (more ++ rest)).take (c :: more).length = c :: more :=
      List.take_left
    have hdrop : (c :: (more ++ rest)).drop (c :: more).length = rest :=
      List.drop_left
    rw [hhere, takeWord_cons htext]
    simp only [within, hfound, htake, hdrop]
  exact tokens_of_token rfl hstep

theorem tokens_fails (hfails : lexicon.Fails text) :
    (within lexicon text cursor lines).tokens =
      .error ⟨String.ofList (text.takeWhile fun c => !isBlank c), cursor, lineAfter lines⟩ := by
  rcases hfails with ⟨hstuck, c, rest, rfl, hc⟩
  have hhere : (within lexicon (c :: rest) cursor lines).skipBlanks =
      within lexicon (c :: rest) cursor lines :=
    skipBlanks_of_head fun d hd => by
      obtain rfl : c = d := Option.some.inj hd
      exact hc
  have hfound : lexicon.match? (c :: rest) = none := Lexicon.match?_eq_none_iff.2 hstuck
  have hstep : (within lexicon (c :: rest) cursor lines).skipBlanks.takeWord =
      (.error (within lexicon (c :: rest) cursor lines).failure,
        { within lexicon (c :: rest) cursor lines with finished := true }) := by
    rw [hhere, takeWord_cons rfl]
    simp only [within, hfound]
  exact tokens_of_failure rfl hstep

end Scanner

/-! ## Tiles -/

/-- A token and the blanks in front of it. -/
structure Tile where
  gap : List Char
  token : Token

namespace Tile

def word (tile : Tile) : List Char :=
  tile.token.value.toList

/-- The characters that some tiles cover. -/
def texts (tiles : List Tile) : List Char :=
  tiles.flatMap fun tile => tile.gap ++ tile.word

/-- The line feeds in the gaps of some tiles. -/
def lineFeeds (tiles : List Tile) : Nat :=
  (tiles.flatMap gap).count '\n'

theorem texts_cons (tile : Tile) (tiles : List Tile) :
    texts (tile :: tiles) = tile.gap ++ (tile.word ++ texts tiles) := by
  rw [texts, List.flatMap_cons, List.append_assoc]
  rfl

theorem lineFeeds_cons (tile : Tile) (tiles : List Tile) :
    lineFeeds (tile :: tiles) = tile.gap.count '\n' + lineFeeds tiles := by
  rw [lineFeeds, List.flatMap_cons, List.count_append]
  rfl

end Tile

namespace Lexicon

variable {lexicon : Lexicon} {gap rest : List Char} {tiles : List Tile}

/-- Tiles that cover what stands in front of a rest, behind some line feeds. The token of each tile
begins behind its gap. It is the match of the lexicon there and carries the number of its line. -/
def Fits (lexicon : Lexicon) (rest : List Char) : Nat → List Tile → Prop
  | _, [] => True
  | lines, tile :: later =>
      Blank tile.gap ∧ (∃ c more, tile.word = c :: more ∧ isBlank c = false) ∧
        lexicon.IsMatch (tile.word ++ (Tile.texts later ++ rest)) tile.word tile.token.kind ∧
        tile.token.line = Scanner.lineAfter (lines + tile.gap.count '\n') ∧
        lexicon.Fits rest (lines + tile.gap.count '\n') later

/-- Tiles that fit are what a scanner reads first. -/
theorem Fits.tokens_eq :
    ∀ {tiles cursor lines}, lexicon.Fits rest lines tiles →
      (Scanner.within lexicon (Tile.texts tiles ++ rest) cursor lines).tokens =
        (Scanner.within lexicon rest (cursor + (Tile.texts tiles).length)
          (lines + Tile.lineFeeds tiles)).tokens.map (tiles.map Tile.token ++ ·) := by
  intro tiles
  induction tiles with
  | nil =>
      intro cursor lines _
      change (Scanner.within lexicon rest cursor lines).tokens =
        (Scanner.within lexicon rest cursor lines).tokens.map ([] ++ ·)
      cases (Scanner.within lexicon rest cursor lines).tokens <;> rfl
  | cons tile later ih =>
      intro cursor lines h
      rcases h with ⟨hgap, ⟨c, more, hword, hc⟩, hmatch, hline, hlater⟩
      have hhead : ∀ d ∈ tile.word.head?, isBlank d = false := by
        intro d hd
        rw [hword] at hd
        obtain rfl : c = d := Option.some.inj hd
        exact hc
      have htoken : (⟨tile.token.kind, String.ofList tile.word,
          Scanner.lineAfter (lines + tile.gap.count '\n')⟩ : Token) = tile.token := by
        rw [← hline, Tile.word, String.ofList_toList]
      have hcursor : cursor + (Tile.texts (tile :: later)).length =
          cursor + tile.gap.length + tile.word.length + (Tile.texts later).length := by
        simp only [Tile.texts_cons, List.length_append]
        omega
      rw [hcursor, Tile.texts_cons, Tile.lineFeeds_cons, List.append_assoc, List.append_assoc,
        Scanner.tokens_gap hgap, Scanner.tokens_word hmatch hhead, ih hlater, htoken,
        ← Nat.add_assoc]
      cases (Scanner.within lexicon rest _ _).tokens <;> rfl

/-- Every text is covered by tiles up to its end or to a place where scanning fails. -/
theorem exists_fits (lexicon : Lexicon) (lines : Nat) (text : List Char) :
    ∃ tiles gap rest, text = Tile.texts tiles ++ (gap ++ rest) ∧ Blank gap ∧
      lexicon.Fits (gap ++ rest) lines tiles ∧ (rest = [] ∨ lexicon.Fails rest) := by
  induction hlength : text.length using Nat.strongRecOn generalizing text lines with
  | _ n ih =>
      have hgap : Blank (text.takeWhile isBlank) := fun c hc =>
        List.all_eq_true.1 List.all_takeWhile c hc
      have htext : text.takeWhile isBlank ++ text.dropWhile isBlank = text :=
        List.takeWhile_append_dropWhile
      cases hrest : text.dropWhile isBlank with
      | nil =>
          rw [hrest] at htext
          exact ⟨[], _, [], htext.symm, hgap, trivial, .inl rfl⟩
      | cons c more =>
          rw [hrest] at htext
          have hc : isBlank c = false := by
            have hhead := List.head?_dropWhile_not isBlank text
            rw [hrest] at hhead
            exact hhead
          by_cases hstuck : lexicon.Stuck (c :: more)
          · exact ⟨[], _, c :: more, htext.symm, hgap, trivial, .inr ⟨hstuck, c, more, rfl, hc⟩⟩
          · rcases exists_isMatch hstuck with ⟨word, later, kind, hsplit, hne, hmatch⟩
            rcases List.exists_cons_of_ne_nil hne with ⟨d, tail, rfl⟩
            obtain rfl : c = d := (List.cons.inj hsplit).1
            have hless : later.length < n := by
              rw [← hlength, ← htext, hsplit]
              simp only [List.length_append, List.length_cons]
              omega
            rcases ih later.length hless (lines + (text.takeWhile isBlank).count '\n') later
              rfl with ⟨tiles, gap, rest, hlater, hlast, hfits, hend⟩
            let tile : Tile := ⟨text.takeWhile isBlank, kind, String.ofList (c :: tail),
              Scanner.lineAfter (lines + (text.takeWhile isBlank).count '\n')⟩
            have hword : tile.word = c :: tail := String.toList_ofList
            refine ⟨tile :: tiles, gap, rest, ?_, hlast,
              ⟨hgap, ⟨c, tail, hword, hc⟩, ?_, rfl, hfits⟩, hend⟩
            · rw [Tile.texts_cons, hword, List.append_assoc, List.append_assoc, ← hlater, ← hsplit,
                htext]
            · rw [hword, ← hlater, ← hsplit]
              exact hmatch

/-! ## Scans -/

theorem scan_eq_within (lexicon : Lexicon) (text : String) :
    lexicon.scan text = (Scanner.within lexicon text.toList 0 0).tokens :=
  rfl

/-- Tiles that fit up to the end of a text give its tokens. -/
theorem scan_of_end {text : String} (htext : text.toList = Tile.texts tiles ++ gap)
    (hgap : Blank gap) (hfits : lexicon.Fits gap 0 tiles) :
    lexicon.scan text = .ok (tiles.map Tile.token ++
      [Token.finish (Scanner.lineAfter (Tile.lineFeeds tiles + gap.count '\n'))]) := by
  rw [scan_eq_within, htext, hfits.tokens_eq, Scanner.tokens_end hgap, Nat.zero_add]
  rfl

/-- Tiles that fit up to a place where scanning fails give the failure. -/
theorem scan_of_fails {text : String} (htext : text.toList = Tile.texts tiles ++ (gap ++ rest))
    (hgap : Blank gap) (hfits : lexicon.Fits (gap ++ rest) 0 tiles) (hfails : lexicon.Fails rest) :
    lexicon.scan text = .error
      ⟨String.ofList (rest.takeWhile fun c => !isBlank c), (Tile.texts tiles ++ gap).length,
        Scanner.lineAfter (Tile.lineFeeds tiles + gap.count '\n')⟩ := by
  rw [scan_eq_within, htext, hfits.tokens_eq, Scanner.tokens_gap hgap, Scanner.tokens_fails hfails,
    Nat.zero_add, Nat.zero_add, List.length_append]
  rfl

/-- Scanning covers a text with tiles: it gives the tokens of tiles that fit up to the end, or the
failure behind tiles that fit up to a character that is no blank and at which no table matches. -/
theorem scan_eq_iff_tiles (lexicon : Lexicon) (text : String) :
    (∀ tokens, lexicon.scan text = .ok tokens ↔
      ∃ tiles gap, text.toList = Tile.texts tiles ++ gap ∧ Blank gap ∧ lexicon.Fits gap 0 tiles ∧
        tokens = tiles.map Tile.token ++
          [Token.finish (Scanner.lineAfter (Tile.lineFeeds tiles + gap.count '\n'))]) ∧
    ∀ e, lexicon.scan text = .error e ↔
      ∃ tiles gap rest, text.toList = Tile.texts tiles ++ (gap ++ rest) ∧ Blank gap ∧
        lexicon.Fits (gap ++ rest) 0 tiles ∧ lexicon.Fails rest ∧
        e = ⟨String.ofList (rest.takeWhile fun c => !isBlank c), (Tile.texts tiles ++ gap).length,
          Scanner.lineAfter (Tile.lineFeeds tiles + gap.count '\n')⟩ := by
  rcases exists_fits lexicon 0 text.toList with
    ⟨tiles, gap, rest, htext, hgap, hfits, rfl | hfails⟩
  · rw [List.append_nil] at htext hfits
    have hscan := scan_of_end htext hgap hfits
    refine ⟨fun tokens => ⟨fun h => ?_, ?_⟩, fun e => ⟨fun h => ?_, ?_⟩⟩
    · exact ⟨tiles, gap, htext, hgap, hfits, Except.ok.inj (h.symm.trans hscan)⟩
    · rintro ⟨tiles', gap', htext', hgap', hfits', rfl⟩
      exact scan_of_end htext' hgap' hfits'
    · rw [hscan] at h
      cases h
    · rintro ⟨tiles', gap', rest', htext', hgap', hfits', hfails', rfl⟩
      exact scan_of_fails htext' hgap' hfits' hfails'
  · have hscan := scan_of_fails htext hgap hfits hfails
    refine ⟨fun tokens => ⟨fun h => ?_, ?_⟩, fun e => ⟨fun h => ?_, ?_⟩⟩
    · rw [hscan] at h
      cases h
    · rintro ⟨tiles', gap', htext', hgap', hfits', rfl⟩
      exact scan_of_end htext' hgap' hfits'
    · exact ⟨tiles, gap, rest, htext, hgap, hfits, hfails, Except.error.inj (h.symm.trans hscan)⟩
    · rintro ⟨tiles', gap', rest', htext', hgap', hfits', hfails', rfl⟩
      exact scan_of_fails htext' hgap' hfits' hfails'

end Lexicon
end BnfGrammar
