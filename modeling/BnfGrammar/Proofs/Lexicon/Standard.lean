import BnfGrammar.Proofs.Automaton.Words
import BnfGrammar.Proofs.Lexicon.Tiling
import BnfGrammar.Proofs.Table.Compile

/-!
# The words of the grammar notation

A direct reading of texts in the grammar notation, without tables and searches: signs are words of
their own, and a run of letters and digits is cut where the keyword for the empty alternative stands
at its front. This file shows that scanning a text reads it this way, and that it fails exactly at
the first character that belongs to no word.

A run of letters and digits is read from the front, so the keyword is found in `epsilonx` and not
in `xepsilon`.
-/

namespace BnfGrammar

open Scanner (lineAfter)

/-! ## Matches of compiled lexicons -/

/-- A word is the longest non-empty beginning of a text that an automaton accepts. -/
structure Automaton.IsLongest (a : Automaton) (text word : List Char) : Prop where
  begins : word <+: text
  ne_nil : word ≠ []
  accepts : a.Accepts word
  longest : ∀ longer, longer <+: text → a.Accepts longer → longer.length ≤ word.length

/-- An automaton accepts no non-empty beginning of a text. -/
def Automaton.Rejects (a : Automaton) (text : List Char) : Prop :=
  ∀ word, word <+: text → word ≠ [] → ¬ a.Accepts word

section Compiled

variable {a : Automaton} {kind found : TokenKind} {text word : List Char}
  {entries : List (TokenKind × Automaton)}

theorem Table.isMatch_compile_iff (h : (Table.compile kind a).Faithful a) :
    (Table.compile kind a).IsMatch text word found ↔ kind = found ∧ a.IsLongest text word := by
  constructor
  · rintro ⟨hbegins, hne, ⟨last, hrun, haccepting, htoken⟩, hlongest⟩
    refine ⟨(Table.tokenAt_compile.1 htoken).2, hbegins, hne, ?_, ?_⟩
    · exact (h.accepts_iff word).1 ⟨last, hrun, haccepting⟩
    · exact fun longer hlonger haccepts =>
        hlongest longer hlonger ((h.accepts_iff longer).2 haccepts)
  · rintro ⟨rfl, hbegins, hne, haccepts, hlongest⟩
    rcases (h.accepts_iff word).2 haccepts with ⟨last, hrun, haccepting⟩
    refine ⟨hbegins, hne, ⟨last, hrun, haccepting, Table.tokenAt_compile.2 ⟨haccepting, rfl⟩⟩, ?_⟩
    exact fun longer hlonger haccepts => hlongest longer hlonger ((h.accepts_iff longer).1 haccepts)

namespace Lexicon

theorem isMatch_ofAutomata (before after : List (TokenKind × Automaton))
    (hfaithful : ∀ entry ∈ before ++ (kind, a) :: after,
      (Table.compile entry.1 entry.2).Faithful entry.2)
    (hbefore : ∀ entry ∈ before, entry.2.Rejects text) (hlongest : a.IsLongest text word) :
    (ofAutomata (before ++ (kind, a) :: after)).IsMatch text word kind := by
  refine ⟨_, Table.compile kind a, _, List.map_append, ?_, ?_⟩
  · have hmem : (kind, a) ∈ before ++ (kind, a) :: after :=
      List.mem_append_right _ List.mem_cons_self
    exact (Table.isMatch_compile_iff (hfaithful _ hmem)).2 ⟨rfl, hlongest⟩
  · intro table htable word' found hmatch
    rcases List.mem_map.1 htable with ⟨entry, hentry, rfl⟩
    have hlongest' := ((Table.isMatch_compile_iff
      (hfaithful _ (List.mem_append_left _ hentry))).1 hmatch).2
    exact hbefore entry hentry word' hlongest'.begins hlongest'.ne_nil hlongest'.accepts

theorem stuck_ofAutomata
    (hfaithful : ∀ entry ∈ entries, (Table.compile entry.1 entry.2).Faithful entry.2)
    (hreject : ∀ entry ∈ entries, entry.2.Rejects text) : (ofAutomata entries).Stuck text := by
  intro table htable word found hmatch
  rcases List.mem_map.1 htable with ⟨entry, hentry, rfl⟩
  have hlongest := ((Table.isMatch_compile_iff (hfaithful _ hentry)).1 hmatch).2
  exact hreject entry hentry word hlongest.begins hlongest.ne_nil hlongest.accepts

end Lexicon
end Compiled

namespace Automaton

/-- The automata of the signs, which are tried before the others. -/
def signs : List (TokenKind × Automaton) :=
  [(.semicolon, semicolon), (.derives, derives), (.alsoDerives, alsoDerives)]

theorem faithful_grammarWords : ∀ entry ∈ grammarWords,
    (Table.compile entry.1 entry.2).Faithful entry.2 := by
  have hwords : ∀ entry ∈ grammarWords, entry.2.labels.size < UInt32.size ∧
      entry.2.Deterministic ∧ entry.2.LabelsApart := by
    decide +kernel
  intro entry hentry
  rcases hwords entry hentry with ⟨hsize, hdeterministic, hapart⟩
  exact Table.faithful_of_labelsApart hsize hdeterministic hapart

end Automaton

/-! ## Words of runs -/

/-- The keyword for the empty alternative, in any mix of cases. -/
def spellsEpsilon (word : List Char) : Bool :=
  word.map Char.toLower = "epsilon".toList

theorem length_of_spellsEpsilon {word : List Char} (h : spellsEpsilon word = true) :
    word.length = 7 := by
  have hlength := congrArg List.length (of_decide_eq_true h)
  simpa using hlength

/-- The kinds of the signs. -/
def signKind? : Char → Option TokenKind
  | ';' => some .semicolon
  | ':' => some .derives
  | '|' => some .alsoDerives
  | _ => none

/-- The characters that texts in the grammar notation are made of. -/
def belongs (c : Char) : Bool :=
  isBlank c || (signKind? c).isSome || c.isAlphanum

/-- The words of a run of letters and digits. As long as the keyword stands at the front it is a
word of its own, and the rest is a name. -/
def runWords (line : UInt32) (run : List Char) : List Token :=
  if spellsEpsilon (run.take 7) then
    ⟨.epsilon, String.ofList (run.take 7), line⟩ :: runWords line (run.drop 7)
  else if run = [] then []
  else [⟨.symbol, String.ofList run, line⟩]
termination_by run.length
decreasing_by
  have hlength := length_of_spellsEpsilon ‹_›
  simp only [List.length_take, List.length_drop] at hlength ⊢
  omega

/-- The words of a text behind some line feeds. -/
def words (lines : Nat) : List Char → List Token
  | [] => []
  | c :: rest =>
      if c.isAlphanum then
        runWords (lineAfter lines) (c :: rest.takeWhile Char.isAlphanum) ++
          words lines (rest.dropWhile Char.isAlphanum)
      else
        ((signKind? c).map fun kind => ⟨kind, String.singleton c, lineAfter lines⟩).toList ++
          words (lines + [c].count '\n') rest
termination_by text => text.length
decreasing_by
  · exact Nat.lt_succ_of_le (List.dropWhile_sublist _).length_le
  · exact Nat.lt_succ_self _

/-! ## What the automata accept -/

namespace Automaton

variable {c d : Char} {text rest : List Char}

/-- The letters of the keyword come in both cases and in no other variant. -/
theorem mem_caseVariants_epsilon {letter : Char} (hletter : letter ∈ "EPSILON".toList) :
    c ∈ caseVariants letter ↔ c.toLower = letter.toLower := by
  have hsmall : ("EPSILON".toList.all fun letter => (List.range 128).all fun code =>
      Char.ofNat code ∈ caseVariants letter ↔
        (Char.ofNat code).toLower = letter.toLower) = true := by
    decide +kernel
  have hbound : ("EPSILON".toList.all fun letter => letter.toLower.toNat < 128 &&
      (caseVariants letter).all fun d => d.toNat < 128) = true := by
    decide +kernel
  simp only [List.all_eq_true, decide_eq_true_eq, Bool.and_eq_true, List.mem_range] at hsmall hbound
  by_cases hc : c.toNat < 128
  · simpa using hsmall letter hletter c.toNat hc
  · have hlower : c.toLower = c := by
      refine dif_neg fun h => hc ?_
      have hcode : c.toNat ≤ 90 := UInt32.le_iff_toNat_le.1 h.2
      omega
    refine iff_of_false (fun h => hc ((hbound letter hletter).2 c h)) fun h => hc ?_
    rw [← hlower, h]
    exact (hbound letter hletter).1

theorem forall₂_caseVariants_iff {letters : List Char}
    (hletters : ∀ letter ∈ letters, letter ∈ "EPSILON".toList) :
    ∀ {text}, List.Forall₂ (fun c letter => c ∈ caseVariants letter) text letters ↔
      text.map Char.toLower = letters.map Char.toLower := by
  induction letters with
  | nil => simp
  | cons letter letters ih =>
      intro text
      rcases List.forall_mem_cons.1 hletters with ⟨hletter, hrest⟩
      cases text with
      | nil => simp
      | cons c text => simp [mem_caseVariants_epsilon hletter, ih hrest]

theorem accepts_epsilon_iff : epsilon.Accepts text ↔ spellsEpsilon text = true := by
  have hletters : "EPSILON".toList.map Char.toLower = "epsilon".toList := by
    decide
  rw [epsilon, accepts_keyword_iff (by decide) (by decide), forall₂_caseVariants_iff fun _ h => h,
    hletters, spellsEpsilon, decide_eq_true_iff]

theorem isAlphanum_of_accepts_epsilon (h : epsilon.Accepts text) :
    ∀ c ∈ text, c.isAlphanum = true := by
  have hvariants : ("EPSILON".toList.all fun letter =>
      (caseVariants letter).all Char.isAlphanum) = true := by
    decide +kernel
  have hletters : ("epsilon".toList.all fun lower =>
      "EPSILON".toList.any fun letter => lower = letter.toLower) = true := by
    decide
  simp only [List.all_eq_true, List.any_eq_true, decide_eq_true_eq] at hvariants hletters
  intro c hc
  have hspells : text.map Char.toLower = "epsilon".toList :=
    of_decide_eq_true (accepts_epsilon_iff.1 h)
  rcases hletters c.toLower (hspells ▸ List.mem_map_of_mem hc) with ⟨letter, hletter, hlower⟩
  exact hvariants letter hletter c ((mem_caseVariants_epsilon hletter).2 hlower)

/-! ## Beginnings of texts -/

theorem isLongest_single (c : Char) (rest : List Char) :
    (single c).IsLongest (c :: rest) [c] where
  begins := List.cons_prefix_cons.2 ⟨rfl, List.nil_prefix⟩
  ne_nil := List.cons_ne_nil c []
  accepts := accepts_single_iff.2 rfl
  longest _ _ haccepts := Nat.le_of_eq (congrArg List.length (accepts_single_iff.1 haccepts))

theorem rejects_single (h : d ≠ c) : (single c).Rejects (d :: rest) := by
  intro word hbegins _ haccepts
  rw [accepts_single_iff.1 haccepts] at hbegins
  exact h (List.cons_prefix_cons.1 hbegins).1.symm

/-- An automaton of letters and digits rejects what begins with anything else. -/
theorem rejects_of_head {a : Automaton}
    (haccepts : ∀ text, a.Accepts text → ∀ c ∈ text, c.isAlphanum = true)
    (hc : c.isAlphanum = false) : a.Rejects (c :: rest) := by
  intro word hbegins hne h
  rcases List.exists_cons_of_ne_nil hne with ⟨d, more, rfl⟩
  obtain rfl := (List.cons_prefix_cons.1 hbegins).1
  have hd := haccepts _ h d List.mem_cons_self
  rw [hc] at hd
  cases hd

variable {run : List Char}

/-- A beginning made of letters and digits ends within the run at the front. -/
theorem prefix_of_prefix_run (hrest : ∀ c ∈ rest.head?, c.isAlphanum = false) {word : List Char}
    (hbegins : word <+: run ++ rest) (hword : ∀ c ∈ word, c.isAlphanum = true) : word <+: run := by
  rcases List.prefix_or_prefix_of_prefix hbegins (List.prefix_append run rest) with h | ⟨more, rfl⟩
  · exact h
  · cases more with
    | nil => simp
    | cons c more =>
        rcases (List.prefix_append_right_inj run).1 hbegins with ⟨later, rfl⟩
        have hc := hword c (by simp)
        rw [hrest c rfl] at hc
        cases hc

theorem isLongest_name (hne : run ≠ []) (hrun : ∀ c ∈ run, c.isAlphanum = true)
    (hrest : ∀ c ∈ rest.head?, c.isAlphanum = false) : name.IsLongest (run ++ rest) run where
  begins := List.prefix_append run rest
  ne_nil := hne
  accepts := accepts_name_iff.2 ⟨hne, hrun⟩
  longest _ hlonger haccepts :=
    (prefix_of_prefix_run hrest hlonger (accepts_name_iff.1 haccepts).2).length_le

theorem isLongest_epsilon (h : spellsEpsilon (run.take 7) = true) :
    epsilon.IsLongest (run ++ rest) (run.take 7) where
  begins := (List.take_prefix 7 run).trans (List.prefix_append run rest)
  ne_nil := List.ne_nil_of_length_pos (by rw [length_of_spellsEpsilon h]; decide)
  accepts := accepts_epsilon_iff.2 h
  longest _ _ haccepts := Nat.le_of_eq
    ((length_of_spellsEpsilon (accepts_epsilon_iff.1 haccepts)).trans
      (length_of_spellsEpsilon h).symm)

theorem rejects_epsilon (hrest : ∀ c ∈ rest.head?, c.isAlphanum = false)
    (h : spellsEpsilon (run.take 7) = false) : epsilon.Rejects (run ++ rest) := by
  intro word hbegins _ haccepts
  have hspells := accepts_epsilon_iff.1 haccepts
  have hprefix := prefix_of_prefix_run hrest hbegins (isAlphanum_of_accepts_epsilon haccepts)
  have htake : run.take 7 = word := by
    rw [← length_of_spellsEpsilon hspells]
    exact (List.prefix_iff_eq_take.1 hprefix).symm
  rw [htake, hspells] at h
  cases h

end Automaton

/-! ## Matches of the notation -/

namespace Lexicon

open Automaton

variable {c : Char} {run rest : List Char} {kind : TokenKind}

theorem isAlphanum_eq_false_of_sign (h : signKind? c = some kind) : c.isAlphanum = false := by
  unfold signKind? at h
  split at h <;> first | rfl | cases h

theorem isBlank_eq_false_of_sign (h : signKind? c = some kind) : isBlank c = false := by
  unfold signKind? at h
  split at h <;> first | rfl | cases h

theorem isBlank_eq_false_of_isAlphanum (h : c.isAlphanum = true) : isBlank c = false := by
  by_contra hblank
  simp only [Bool.not_eq_false, isBlank, Bool.or_eq_true, decide_eq_true_eq] at hblank
  rcases hblank with ((rfl | rfl) | rfl) | rfl <;> cases h

theorem signKind?_eq_none_of_isAlphanum (h : c.isAlphanum = true) : signKind? c = none := by
  cases hsign : signKind? c with
  | none => rfl
  | some kind =>
      rw [isAlphanum_eq_false_of_sign hsign] at h
      cases h

/-- The automata of the signs reject what begins with no sign. -/
theorem rejects_signs (h : signKind? c = none) (rest : List Char) :
    ∀ entry ∈ signs, entry.2.Rejects (c :: rest) := by
  intro entry hentry
  simp only [signs, List.mem_cons, List.not_mem_nil, or_false] at hentry
  rcases hentry with rfl | rfl | rfl <;> exact rejects_single (by rintro rfl; cases h)

theorem isMatch_sign (h : signKind? c = some kind) (rest : List Char) :
    standard.IsMatch (c :: rest) [c] kind := by
  have hearlier : ∀ d, d ≠ c → (single d).Rejects (c :: rest) := fun d hd =>
    rejects_single hd.symm
  unfold signKind? at h
  split at h <;> cases h
  · exact isMatch_ofAutomata [] _ faithful_grammarWords (by simp) (isLongest_single ';' rest)
  · exact isMatch_ofAutomata [_] _ faithful_grammarWords
      (List.forall_mem_singleton.2 (hearlier ';' (by decide))) (isLongest_single ':' rest)
  · exact isMatch_ofAutomata [_, _] _ faithful_grammarWords
      (List.forall_mem_cons.2 ⟨hearlier ';' (by decide),
        List.forall_mem_singleton.2 (hearlier ':' (by decide))⟩) (isLongest_single '|' rest)

theorem isMatch_epsilon (hrun : ∀ c ∈ run, c.isAlphanum = true)
    (h : spellsEpsilon (run.take 7) = true) (rest : List Char) :
    standard.IsMatch (run ++ rest) (run.take 7) .epsilon := by
  cases run with
  | nil => cases h
  | cons c run =>
      have hsign := signKind?_eq_none_of_isAlphanum (hrun c List.mem_cons_self)
      exact isMatch_ofAutomata signs [(.symbol, name)] faithful_grammarWords
        (rejects_signs hsign _) (isLongest_epsilon h)

theorem isMatch_name (hne : run ≠ []) (hrun : ∀ c ∈ run, c.isAlphanum = true)
    (hrest : ∀ c ∈ rest.head?, c.isAlphanum = false) (h : spellsEpsilon (run.take 7) = false) :
    standard.IsMatch (run ++ rest) run .symbol := by
  cases run with
  | nil => exact absurd rfl hne
  | cons c run =>
      have hsign := signKind?_eq_none_of_isAlphanum (hrun c List.mem_cons_self)
      have hearlier : ∀ entry ∈ signs ++ [(.epsilon, epsilon)],
          entry.2.Rejects (c :: run ++ rest) := by
        intro entry hentry
        rcases List.mem_append.1 hentry with hentry | hentry
        · exact rejects_signs hsign _ entry hentry
        · rw [List.mem_singleton.1 hentry]
          exact rejects_epsilon hrest h
      exact isMatch_ofAutomata (signs ++ [(.epsilon, epsilon)]) [] faithful_grammarWords hearlier
        (isLongest_name hne hrun hrest)

theorem fails_of_not_belongs (h : belongs c = false) (rest : List Char) :
    standard.Fails (c :: rest) := by
  simp only [belongs, Bool.or_eq_false_iff] at h
  rcases h with ⟨⟨hblank, hsign⟩, hletter⟩
  have hreject : ∀ entry ∈ grammarWords, entry.2.Rejects (c :: rest) := by
    intro entry hentry
    have hsplit : entry ∈ signs ++ [(.epsilon, epsilon), (.symbol, name)] := hentry
    rcases List.mem_append.1 hsplit with hentry | hentry
    · exact rejects_signs (by simpa using hsign) rest entry hentry
    · simp only [List.mem_cons, List.not_mem_nil, or_false] at hentry
      rcases hentry with rfl | rfl
      · exact rejects_of_head (fun _ => isAlphanum_of_accepts_epsilon) hletter
      · exact rejects_of_head (fun _ haccepts => (accepts_name_iff.1 haccepts).2) hletter
  exact ⟨stuck_ofAutomata faithful_grammarWords hreject, c, rest, rfl, hblank⟩

/-! ## Scans of the notation -/

variable {text tail : List Char} {cursor lines : Nat}

theorem head?_isBlank_of_isAlphanum (hrun : ∀ c ∈ run, c.isAlphanum = true) :
    ∀ c ∈ run.head?, isBlank c = false :=
  fun c hc => isBlank_eq_false_of_isAlphanum (hrun c (List.mem_of_mem_head? hc))

/-- A run of letters and digits is read as its words. -/
theorem tokens_run (hrest : ∀ c ∈ rest.head?, c.isAlphanum = false) :
    ∀ {run cursor}, (∀ c ∈ run, c.isAlphanum = true) →
      (Scanner.within standard (run ++ rest) cursor lines).tokens =
        (Scanner.within standard rest (cursor + run.length) lines).tokens.map
          (runWords (lineAfter lines) run ++ ·) := by
  intro run
  fun_induction runWords (lineAfter lines) run with
  | case1 run hspells ih =>
      intro cursor hrun
      have hsplit : run ++ rest = run.take 7 ++ (run.drop 7 ++ rest) := by
        rw [← List.append_assoc, List.take_append_drop]
      have hlength : cursor + (run.take 7).length + (run.drop 7).length = cursor + run.length := by
        rw [Nat.add_assoc, ← List.length_append, List.take_append_drop]
      have hmatch := isMatch_epsilon hrun hspells rest
      rw [hsplit] at hmatch
      rw [hsplit, Scanner.tokens_word hmatch (head?_isBlank_of_isAlphanum fun c hc =>
        hrun c (List.mem_of_mem_take hc)), ih fun c hc => hrun c (List.mem_of_mem_drop hc), hlength]
      cases (Scanner.within standard rest _ _).tokens <;> rfl
  | case2 =>
      intro cursor _
      simp only [List.nil_append, List.length_nil, Nat.add_zero]
      cases (Scanner.within standard rest _ _).tokens <;> rfl
  | case3 run hspells hne =>
      intro cursor hrun
      rw [Scanner.tokens_word (isMatch_name hne hrun hrest (by simpa using hspells))
        (head?_isBlank_of_isAlphanum hrun)]
      rfl

theorem head?_dropWhile_append {p : Char → Bool} (htail : ∀ c ∈ tail.head?, p c = false) :
    ∀ c ∈ (text.dropWhile p ++ tail).head?, p c = false := by
  have hhead := List.head?_dropWhile_not p text
  cases hdrop : text.dropWhile p with
  | nil => exact htail
  | cons d more =>
      rw [hdrop] at hhead
      intro c hc
      obtain rfl : d = c := Option.some.inj hc
      exact hhead

theorem count_lineFeed_of_isAlphanum (hrun : ∀ c ∈ run, c.isAlphanum = true) :
    run.count '\n' = 0 :=
  List.count_eq_zero.2 fun hmem => absurd (hrun _ hmem) (by decide)

/-- A text that belongs to the notation is read as its words. -/
theorem tokens_words (htail : ∀ c ∈ tail.head?, belongs c = false) :
    ∀ {lines text cursor}, (∀ c ∈ text, belongs c = true) →
      (Scanner.within standard (text ++ tail) cursor lines).tokens =
        (Scanner.within standard tail (cursor + text.length) (lines + text.count '\n')).tokens.map
          (words lines text ++ ·) := by
  have htail' : ∀ c ∈ tail.head?, c.isAlphanum = false := fun c hc => by
    have hc := htail c hc
    simp only [belongs, Bool.or_eq_false_iff] at hc
    exact hc.2
  intro lines text
  fun_induction words lines text with
  | case1 lines =>
      intro cursor _
      simp only [List.nil_append, List.length_nil, List.count_nil, Nat.add_zero]
      cases (Scanner.within standard tail _ _).tokens <;> rfl
  | case2 lines c rest hc ih =>
      -- The run that begins with the character, and then what follows it.
      intro cursor htext
      have hsplit : c :: rest =
          (c :: rest.takeWhile Char.isAlphanum) ++ rest.dropWhile Char.isAlphanum := by
        rw [List.cons_append, List.takeWhile_append_dropWhile]
      have hrun : ∀ d ∈ c :: rest.takeWhile Char.isAlphanum, d.isAlphanum = true :=
        List.forall_mem_cons.2 ⟨hc, List.all_eq_true.1 List.all_takeWhile⟩
      have hlater : ∀ d ∈ rest.dropWhile Char.isAlphanum, belongs d = true := fun d hd =>
        htext d (List.mem_cons_of_mem c ((List.dropWhile_sublist _).mem hd))
      rw [hsplit, List.append_assoc, tokens_run (head?_dropWhile_append htail') hrun, ih hlater,
        List.length_append, List.count_append, count_lineFeed_of_isAlphanum hrun, Nat.zero_add,
        ← Nat.add_assoc]
      cases (Scanner.within standard tail _ _).tokens <;> simp [Except.map]
  | case3 lines c rest hc ih =>
      intro cursor htext
      rcases List.forall_mem_cons.1 htext with ⟨hbelongs, hlater⟩
      have hsplit : c :: rest = [c] ++ rest := rfl
      rw [hsplit, List.append_assoc, List.length_append, List.count_append, ← Nat.add_assoc,
        ← Nat.add_assoc]
      cases hsign : signKind? c with
      | none =>
          have hblank : isBlank c = true := by
            simpa [belongs, hsign, hc] using hbelongs
          rw [Scanner.tokens_gap (List.forall_mem_singleton.2 hblank), ih hlater]
          rfl
      | some kind =>
          have hmatch : standard.IsMatch ([c] ++ (rest ++ tail)) [c] kind :=
            isMatch_sign hsign (rest ++ tail)
          have hhead : ∀ d ∈ [c].head?, isBlank d = false := by
            simpa using isBlank_eq_false_of_sign hsign
          have hnone : [c].count '\n' = 0 := by
            refine List.count_eq_zero.2 fun hmem => ?_
            rw [← List.mem_singleton.1 hmem] at hsign
            cases hsign
          rw [hnone, Nat.add_zero] at ih ⊢
          rw [Scanner.tokens_word hmatch hhead, ih hlater]
          cases (Scanner.within standard tail _ _).tokens <;> simp [Except.map]

/-- Scanning a text in the grammar notation. It succeeds if every character belongs to the notation
and gives the words of the text then. Otherwise it fails at the first character that does not
belong. -/
theorem scan_standard_eq (text : String) :
    ((∃ tokens, standard.scan text = .ok tokens) ↔ ∀ c ∈ text.toList, belongs c = true) ∧
      ((∀ c ∈ text.toList, belongs c = true) → standard.scan text =
        .ok (words 0 text.toList ++ [Token.finish (lineAfter (text.toList.count '\n'))])) ∧
      ∀ front c rest, text.toList = front ++ c :: rest → (∀ d ∈ front, belongs d = true) →
        belongs c = false → standard.scan text =
          .error ⟨String.ofList ((c :: rest).takeWhile fun d => !isBlank d), front.length,
            lineAfter (front.count '\n')⟩ := by
  have hall : (∀ c ∈ text.toList, belongs c = true) → standard.scan text =
      .ok (words 0 text.toList ++ [Token.finish (lineAfter (text.toList.count '\n'))]) := by
    intro h
    have htokens : (Scanner.within standard (text.toList ++ []) 0 0).tokens = _ :=
      tokens_words (by simp) h
    rw [List.append_nil, Scanner.tokens_nil, Nat.zero_add] at htokens
    exact htokens
  have hfirst : ∀ front c rest, text.toList = front ++ c :: rest →
      (∀ d ∈ front, belongs d = true) → belongs c = false → standard.scan text =
        .error ⟨String.ofList ((c :: rest).takeWhile fun d => !isBlank d), front.length,
          lineAfter (front.count '\n')⟩ := by
    intro front c rest htext hfront hc
    rw [scan_eq_within, htext, tokens_words (by simpa using hc) hfront,
      Scanner.tokens_fails (fails_of_not_belongs hc rest), Nat.zero_add, Nat.zero_add]
    rfl
  refine ⟨⟨?_, fun h => ⟨_, hall h⟩⟩, hall, hfirst⟩
  rintro ⟨tokens, htokens⟩
  by_contra h
  push Not at h
  rcases h with ⟨d, hd, hnot⟩
  have hsome : (text.toList.find? fun c => !belongs c).isSome = true :=
    List.find?_isSome.2 ⟨d, hd, by simpa using hnot⟩
  rcases Option.isSome_iff_exists.1 hsome with ⟨c, hfind⟩
  rcases List.find?_eq_some_iff_append.1 hfind with ⟨hc, front, rest, htext, hfront⟩
  rw [hfirst front c rest htext (by simpa using hfront) (by simpa using hc)] at htokens
  cases htokens

-- The keyword is found at the front of a run only.
example : (standard.scan "ePsilonx\nxepsilon").toOption = some [⟨.epsilon, "ePsilon", 1⟩,
    ⟨.symbol, "x", 1⟩, ⟨.symbol, "xepsilon", 2⟩, ⟨.endOfInput, "", 2⟩] := by
  decide +kernel

end Lexicon
end BnfGrammar
