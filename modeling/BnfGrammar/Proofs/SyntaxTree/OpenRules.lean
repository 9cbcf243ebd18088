import BnfGrammar.Proofs.SyntaxTree.Failure
import BnfGrammar.Proofs.SyntaxTree.Nested
import BnfGrammar.Proofs.SyntaxTree.Place

/-!
# The open rules of a failure

The rules that a failure reports as open depend only on the words before it. They are those of the
place to which these words lead, so they can be counted off the words.

A reader that is started at a place, with the rules open that are open around it, leads to another
place by what it takes. `Parse.Tracks` says so, with a condition on the place and on the kind of the
word at hand, before and behind; and where the reader fails, the open rules are those of the place
to which it has come. The condition behind a reader also tells which words are certain to come, such
as the semicolon behind a production set.
-/

namespace BnfGrammar
namespace Parse

open Place

variable {α β ι : Type} {p q r : Progress} {x y z : Place} {opened : List Rule}
  {pre mid post : Place → TokenKind → Prop}

/-! ## Places and progress -/

/-- The tokens between two progresses lead from one place to another. -/
def Leads (p : Progress) (x : Place) (q : Progress) (y : Place) : Prop :=
  ∃ taken, Takes p taken q ∧ x.run (taken.map Token.kind) = some y

namespace Leads

/-- Only the tokens that are left matter, and not the open rules. -/
theorem of_same (x : Place) (hrest : q.rest = p.rest) (hfinish : q.finish = p.finish) :
    Leads p x q x :=
  ⟨[], ⟨hrest.symm, hfinish⟩, rfl⟩

theorem refl (p : Progress) (x : Place) : Leads p x p x :=
  of_same x rfl rfl

theorem trans (h : Leads p x q y) (h' : Leads q y r z) : Leads p x r z := by
  rcases h with ⟨taken, htakes, hrun⟩
  rcases h' with ⟨taken', htakes', hrun'⟩
  refine ⟨taken ++ taken', htakes.trans htakes', ?_⟩
  rw [List.map_append]
  exact run_append_eq_some_iff.2 ⟨y, hrun, hrun'⟩

theorem finish_eq (h : Leads p x q y) : q.finish = p.finish := by
  rcases h with ⟨_, htakes, _⟩
  exact htakes.finish

end Leads

/-- A result that was got from a progress at a place: a success at a place as wanted, or a failure
with the open rules of the place where it happened. -/
inductive Ends (wanted : Place → TokenKind → Prop) (p : Progress) (x : Place) :
    EStateM.Result ParseError Progress α → Prop
  | ok (a : α) {q : Progress} {y : Place} :
      Leads p x q y → wanted y q.word.kind → Ends wanted p x (.ok a q)
  | error (e : ParseError) {q : Progress} {y : Place} :
      Leads p x q y → q.opened.reverse = y.openRules → Ends wanted p x (.error e q)

namespace Ends

theorem behind {result : EStateM.Result ParseError Progress α} (hleads : Leads p x q y)
    (h : Ends post q y result) : Ends post p x result := by
  cases h with
  | ok a hmore hwanted => exact .ok a (hleads.trans hmore) hwanted
  | error e hmore hopened => exact .error e (hleads.trans hmore) hopened

theorem bind {reader : Reader α} {after : α → Reader β} (h : Ends mid p x (reader p))
    (hafter : ∀ a q y, reader p = .ok a q → Leads p x q y → mid y q.word.kind →
      Ends post q y (after a q)) : Ends post p x ((reader >>= after) p) := by
  change Ends post p x (EStateM.bind reader after p)
  unfold EStateM.bind
  generalize hresult : reader p = result at h
  cases h with
  | ok a hleads hmid => exact (hafter a _ _ hresult hleads hmid).behind hleads
  | error e hleads hopened => exact .error e hleads hopened

end Ends

/-! ## Readers that keep to the places -/

/-- With some rules open, a reader that is started where `pre` admits it comes to a place that
`post` admits, or fails with the open rules of the place to which it has come. -/
def Tracks (reader : Reader α) (opened : List Rule) (pre post : Place → TokenKind → Prop) : Prop :=
  ∀ ⦃p : Progress⦄ ⦃x : Place⦄, p.finish.kind = .endOfInput → p.opened.reverse = opened →
    pre x p.word.kind → Ends post p x (reader p)

namespace Tracks

theorem mono {reader : Reader α} {pre' post' : Place → TokenKind → Prop}
    (h : Tracks reader opened pre post) (hpre : ∀ x next, pre' x next → pre x next)
    (hpost : ∀ y next, post y next → post' y next) : Tracks reader opened pre' post' := by
  intro p x hfinish hopened hx
  have hends := h hfinish hopened (hpre x _ hx)
  generalize reader p = result at hends ⊢
  cases hends with
  | ok a hleads hmid => exact .ok a hleads (hpost _ _ hmid)
  | error e hleads hopened => exact .error e hleads hopened

theorem bind {reader : Reader α} {after : α → Reader β} (hkeeps : KeepsOpened reader)
    (h : Tracks reader opened pre mid) (hafter : ∀ a, Tracks (after a) opened mid post) :
    Tracks (reader >>= after) opened pre post := by
  intro p x hfinish hopened hpre
  refine (h hfinish hopened hpre).bind ?_
  intro a q y hreader hleads hmid
  have hopened' : q.opened.reverse = opened := by rw [hkeeps hreader, hopened]
  exact hafter a (hleads.finish_eq ▸ hfinish) hopened' hmid

theorem map {reader : Reader α} (f : α → β) (h : Tracks reader opened pre post) :
    Tracks (do return f (← reader)) opened pre post :=
  fun _ _ hfinish hopened hpre =>
    (h hfinish hopened hpre).bind fun a q y _ _ hpost => .ok (f a) (.refl q y) hpost

/-- A reader may fail at once where the open rules are those of the place. -/
theorem fail (h : ∀ x next, pre x next → x.openRules = opened) :
    Tracks (Parse.fail : Reader α) opened pre post :=
  fun p x _ hopened hpre => .error p.failure (.refl p x) (hopened.trans (h x _ hpre).symm)

theorem choose {readers : TokenKind → Reader α}
    (h : ∀ kind, Tracks (readers kind) opened (fun x next => pre x next ∧ next = kind) post) :
    Tracks (do readers (← get).word.kind) opened pre post :=
  fun p _ hfinish hopened hpre => h p.word.kind hfinish hopened ⟨hpre, rfl⟩

/-- A word leads one step further. Where another word is at hand, the open rules have to be those of
the place. -/
theorem expect {kind : TokenKind} (hkind : kind ≠ .endOfInput)
    (hstep : ∀ x, pre x kind → ∃ y, x.step kind = some y ∧ ∀ next, post y next)
    (hother : ∀ x next, pre x next → next ≠ kind → x.openRules = opened) :
    Tracks (Parse.expect kind) opened pre post := by
  intro p x hfinish hopened hpre
  rw [expect_eq]
  by_cases hword : p.word.kind = kind
  · rw [if_pos hword]
    rcases hstep x (hword ▸ hpre) with ⟨y, hy, hpost⟩
    cases hrest : p.rest with
    | nil =>
        -- With no token left the word at hand is the end of the input.
        have hend : p.word = p.finish := by simp [Progress.word, hrest]
        exact absurd (hend ▸ hword).symm (hfinish ▸ hkind)
    | cons t rest =>
        have hhead : p.word = t := by simp [Progress.word, hrest]
        have htakes : Takes p [t] p.advance := ⟨by simp [Progress.advance, hrest], rfl⟩
        have hrun : x.run ([t].map Token.kind) = some y := by
          rw [List.map_singleton, run_singleton, ← hhead, hword, hy]
        exact .ok _ ⟨[t], htakes, hrun⟩ (hpost _)
  · rw [if_neg hword]
    exact .error _ (.refl p x) (hopened.trans (hother x _ hpre hword).symm)

theorem expect_bind {kind : TokenKind} (mid : Place → TokenKind → Prop) {after : Node → Reader β}
    (hkind : kind ≠ .endOfInput)
    (hstep : ∀ x, pre x kind → ∃ y, x.step kind = some y ∧ ∀ next, mid y next)
    (hother : ∀ x next, pre x next → next ≠ kind → x.openRules = opened)
    (hafter : ∀ n, Tracks (after n) opened mid post) :
    Tracks (Parse.expect kind >>= after) opened pre post :=
  bind (KeepsOpened.expect kind) (expect hkind hstep hother) hafter

theorem expand (rule : Rule) {body : Reader (List Node)}
    (h : Tracks body (opened ++ [rule]) pre post) :
    Tracks (Parse.expand rule body) opened pre post := by
  intro p x hfinish hopened hpre
  have hfinish' : (p.enter rule).finish.kind = .endOfInput := hfinish
  have hopened' : (p.enter rule).opened.reverse = opened ++ [rule] := by
    simp [Progress.enter, hopened]
  have hexpand : Parse.expand rule body p = (body >>= fun children => do
      modify Progress.leave
      return Node.expansion rule children) (p.enter rule) :=
    rfl
  have hentered : Leads p x (p.enter rule) x := .of_same x rfl rfl
  rw [hexpand]
  refine Ends.behind hentered ((h hfinish' hopened' hpre).bind ?_)
  intro children q y _ _ hpost
  exact .ok (Node.expansion rule children) (.of_same y rfl rfl) hpost

/-! ## Tails -/

section Tails

variable {rule : Rule} {body : Reader (List Node)} {children : ι → List Node}
  {words : ι → List Outline.Word} {next : TokenKind → Prop} {start : TokenKind}
  (inv : Nat → Place → TokenKind → Prop)

/-- What holds before a round, by the number of rounds before it, holds where the rounds end. -/
theorem ends_rounds (hreads : Reads body children words next)
    (hstart : ∀ item, ∃ text more, words item = (start, text) :: more)
    (hkeeps : KeepsOpened body)
    (hbody : ∀ j, Tracks body (opened ++ List.replicate (j + 1) rule)
      (fun x kind => inv j x kind ∧ kind ∉ rule.emptyBefore) (inv (j + 1))) :
    ∀ (limit j : Nat) (done : List (List Node)) {p : Progress} {x : Place},
      p.finish.kind = .endOfInput → p.rest.length < limit →
      p.opened.reverse = opened ++ List.replicate j rule → inv j x p.word.kind →
      Ends (fun y kind => (∃ j, inv j y kind) ∧ kind ∈ rule.emptyBefore) p x
        (rounds rule body limit done p) := by
  -- By induction on the limit. The tokens that are left decrease at least as fast.
  intro limit
  induction limit with
  | zero =>
      intro j done p x _ hlimit _ _
      omega
  | succ limit ih =>
      intro j done p x hfinish hlimit hopened hinv
      rw [rounds_succ]
      have hentered : Leads p x (p.enter rule) x := .of_same x rfl rfl
      by_cases hend : rule.emptyBefore.contains p.word.kind = true
      · rw [if_pos hend]
        have hends : p.word.kind ∈ rule.emptyBefore := by simpa using hend
        exact .ok done hentered ⟨⟨j, hinv⟩, hends⟩
      · rw [if_neg hend]
        have hopened' : (p.enter rule).opened.reverse =
            opened ++ List.replicate (j + 1) rule := by
          simp [Progress.enter, hopened, List.replicate_succ']
        have hfinish' : (p.enter rule).finish.kind = .endOfInput := hfinish
        have hcontinues : p.word.kind ∉ rule.emptyBefore := by simpa using hend
        have hround := hbody j hfinish' hopened' ⟨hinv, hcontinues⟩
        refine (hround.bind ?_).behind hentered
        intro round q y hresult hleads hmore
        have hshorter := rest_length_lt hreads hstart hfinish hresult
        refine ih (j + 1) (round :: done) (hleads.finish_eq ▸ hfinish') (by omega) ?_ hmore
        rw [hkeeps hresult, hopened']

theorem expandTail (hreads : Reads body children words next)
    (hstart : ∀ item, ∃ text more, words item = (start, text) :: more)
    (hkeeps : KeepsOpened body)
    (hbody : ∀ j, Tracks body (opened ++ List.replicate (j + 1) rule)
      (fun x kind => inv j x kind ∧ kind ∉ rule.emptyBefore) (inv (j + 1))) :
    Tracks (Parse.expandTail rule body) opened (inv 0)
      (fun y kind => (∃ j, inv j y kind) ∧ kind ∈ rule.emptyBefore) := by
  intro p x hfinish hopened hinv
  rw [expandTail_eq]
  have hrounds := ends_rounds inv hreads hstart hkeeps hbody (p.rest.length + 1) 0 [] hfinish
    (Nat.lt_succ_self _) (by simpa using hopened) hinv
  refine hrounds.bind ?_
  intro done q y _ _ hpost
  exact .ok (nestRounds rule done) (.of_same y rfl rfl) hpost

end Tails
end Tracks

/-! ## The procedures of the parser -/

/-- At a place, whatever the word at hand. -/
def At (x : Place) : Place → TokenKind → Prop :=
  fun y _ => y = x

/-- Behind an alternative. Names only end before a semicolon or a bar. -/
def BehindSide (sets bars : Nat) : Place → TokenKind → Prop :=
  fun y next => y = ⟨sets, .empty bars⟩ ∨
    ∃ more, y = ⟨sets, .names bars more⟩ ∧ next ∈ Rule.symbolListTail.emptyBefore

/-- The rules that are open around the alternative behind some bars. -/
def aroundSide (sets bars : Nat) : List Rule :=
  outerRules sets ++ .productionSet :: List.replicate bars .productionSetTail

theorem openRules_side (sets bars : Nat) :
    openRules ⟨sets, .side bars⟩ = aroundSide sets bars ++ [.rightHandSide] := by
  simp [openRules, Stage.openRules, aroundSide]

theorem openRules_empty (sets bars : Nat) :
    openRules ⟨sets, .empty bars⟩ = aroundSide sets (bars + 1) :=
  rfl

theorem openRules_names (sets bars more : Nat) :
    openRules ⟨sets, .names bars more⟩ =
      aroundSide sets bars ++ [.rightHandSide] ++ [.symbolList] ++
        List.replicate (more + 1) .symbolListTail := by
  simp [openRules, Stage.openRules, aroundSide]

variable (sets bars : Nat)

theorem tracks_symbolListTail :
    Tracks symbolListTail (aroundSide sets bars ++ [.rightHandSide] ++ [.symbolList])
      (At ⟨sets, .names bars 0⟩)
      (fun y next => (∃ more, At ⟨sets, .names bars more⟩ y next) ∧
        next ∈ Rule.symbolListTail.emptyBefore) := by
  refine Tracks.expandTail (fun more => At ⟨sets, .names bars more⟩) reads_otherName
    (fun name => ⟨name, [], rfl⟩) keepsOpened_otherName ?_
  intro more
  refine (Tracks.expect (by decide) ?_ ?_).map _
  · rintro _ ⟨rfl, _⟩
    exact ⟨⟨sets, .names bars (more + 1)⟩, rfl, fun _ => rfl⟩
  · rintro _ _ ⟨rfl, _⟩ _
    exact openRules_names sets bars more

theorem tracks_symbolList :
    Tracks symbolList (aroundSide sets bars ++ [.rightHandSide])
      (fun x next => At ⟨sets, .side bars⟩ x next ∧ next = .symbol)
      (fun y next => (∃ more, At ⟨sets, .names bars more⟩ y next) ∧
        next ∈ Rule.symbolListTail.emptyBefore) := by
  refine Tracks.expand .symbolList
    (Tracks.expect_bind (At ⟨sets, .names bars 0⟩) (by decide) ?_ ?_ ?_)
  · rintro _ ⟨rfl, _⟩
    exact ⟨⟨sets, .names bars 0⟩, rfl, fun _ => rfl⟩
  · -- The right-hand side has looked at the name before.
    rintro _ _ ⟨rfl, rfl⟩ hother
    exact absurd rfl hother
  · exact fun first => (tracks_symbolListTail sets bars).map fun others => [first, others]

theorem tracks_rightHandSide :
    Tracks rightHandSide (aroundSide sets bars) (At ⟨sets, .side bars⟩) (BehindSide sets bars) := by
  have hcontent : ∀ kind, Tracks (content kind) (aroundSide sets bars ++ [.rightHandSide])
      (fun x next => At ⟨sets, .side bars⟩ x next ∧ next = kind) (BehindSide sets bars) := by
    intro kind
    cases kind with
    | epsilon =>
        refine (Tracks.expect (by decide) ?_ ?_).map _
        · rintro _ ⟨rfl, _⟩
          exact ⟨⟨sets, .empty bars⟩, rfl, fun _ => Or.inl rfl⟩
        · rintro _ _ ⟨rfl, rfl⟩ hother
          exact absurd rfl hother
    | symbol =>
        refine Tracks.map (fun list => [list])
          ((tracks_symbolList sets bars).mono (fun _ _ => id) ?_)
        rintro y next ⟨⟨more, rfl⟩, hnext⟩
        exact Or.inr ⟨more, rfl, hnext⟩
    | semicolon | derives | alsoDerives | endOfInput =>
        refine Tracks.fail ?_
        rintro _ _ ⟨rfl, _⟩
        exact openRules_side sets bars
  exact Tracks.expand .rightHandSide (Tracks.choose hcontent)

theorem tracks_productionSetTail :
    Tracks productionSetTail (outerRules sets ++ [.productionSet]) (BehindSide sets 0)
      (fun y next => (∃ bars, BehindSide sets bars y next) ∧
        next ∈ Rule.productionSetTail.emptyBefore) := by
  refine Tracks.expandTail (BehindSide sets) reads_other
    (fun other => ⟨other.1, other.2.words, rfl⟩) keepsOpened_other ?_
  intro bars
  have haround : outerRules sets ++ [.productionSet] ++
      List.replicate (bars + 1) .productionSetTail = aroundSide sets (bars + 1) := by
    simp [aroundSide]
  rw [haround]
  refine Tracks.expect_bind (At ⟨sets, .side (bars + 1)⟩) (by decide) ?_ ?_ ?_
  · rintro _ ⟨rfl | ⟨more, rfl, _⟩, _⟩
    · exact ⟨_, rfl, fun _ => rfl⟩
    · exact ⟨_, rfl, fun _ => rfl⟩
  · rintro _ next ⟨rfl | ⟨more, rfl, hends⟩, hcontinues⟩ hother
    · exact openRules_empty sets bars
    · -- Behind names comes a semicolon or a bar.
      rcases List.mem_cons.1 hends with rfl | hbar
      · exact absurd (List.mem_singleton_self _) hcontinues
      · exact absurd (List.mem_singleton.1 hbar) hother
  · exact fun bar => (tracks_rightHandSide sets (bars + 1)).map fun side => [bar, side]

theorem tracks_productionSet :
    Tracks productionSet (outerRules sets) (At ⟨sets, .start⟩)
      (fun y next => (∃ bars, BehindSide sets bars y next) ∧
        next ∈ Rule.productionSetTail.emptyBefore) := by
  -- Until the first right-hand side the production set itself stays the innermost rule.
  refine Tracks.expand .productionSet
    (Tracks.expect_bind (At ⟨sets, .head⟩) (by decide) ?_ ?_ fun head => ?_)
  · rintro _ rfl
    exact ⟨_, rfl, fun _ => rfl⟩
  · rintro _ _ rfl _
    rfl
  refine Tracks.expect_bind (At ⟨sets, .side 0⟩) (by decide) ?_ ?_ fun colon => ?_
  · rintro _ rfl
    exact ⟨_, rfl, fun _ => rfl⟩
  · rintro _ _ rfl _
    rfl
  exact Tracks.bind keepsOpened_rightHandSide (tracks_rightHandSide sets 0) fun first =>
    (tracks_productionSetTail sets).map fun others => [head, colon, first, others]

/-- The semicolon behind a production set is certain to come. -/
theorem tracks_semicolon :
    Tracks (expect .semicolon) opened
      (fun y next => (∃ bars, BehindSide sets bars y next) ∧
        next ∈ Rule.productionSetTail.emptyBefore)
      (At ⟨sets + 1, .start⟩) := by
  refine Tracks.expect (by decide) ?_ ?_
  · rintro _ ⟨⟨bars, rfl | ⟨more, rfl, _⟩⟩, _⟩
    · exact ⟨_, rfl, fun _ => rfl⟩
    · exact ⟨_, rfl, fun _ => rfl⟩
  · rintro _ next ⟨_, hends⟩ hother
    exact absurd (List.mem_singleton.1 hends) hother

theorem tracks_productionListTail :
    Tracks productionListTail [.grammar, .productionList] (At ⟨1, .start⟩)
      (fun y next => (∃ sets, At ⟨sets + 1, .start⟩ y next) ∧
        next ∈ Rule.productionListTail.emptyBefore) := by
  refine Tracks.expandTail (fun sets => At ⟨sets + 1, .start⟩) reads_block
    (fun b => ⟨b.head, _, rfl⟩) keepsOpened_block ?_
  intro sets
  refine Tracks.bind keepsOpened_productionSet
    ((tracks_productionSet (sets + 1)).mono (fun _ _ => And.left) fun _ _ => id) ?_
  exact fun set => (tracks_semicolon (sets + 1)).map fun stop => [set, stop]

theorem tracks_productionList :
    Tracks productionList [.grammar] (At start)
      (fun y next => (∃ sets, At ⟨sets + 1, .start⟩ y next) ∧
        next ∈ Rule.productionListTail.emptyBefore) := by
  refine Tracks.expand .productionList
    (Tracks.bind keepsOpened_productionSet (tracks_productionSet 0) fun set => ?_)
  exact Tracks.bind (KeepsOpened.expect .semicolon) (tracks_semicolon 0) fun stop =>
    tracks_productionListTail.map fun others => [set, stop, others]

end Parse

/-! ## Whole parses -/

namespace Node

open Parse

variable {tokens : List Token} {e : ParseError}

/-- Where a parse fails, the tokens that have been taken lead to a place, the open rules are those
of the place, and no sentence begins with these tokens and the word at hand. -/
theorem exists_place_of_error (h : parse tokens = .error e) :
    ∃ (taken : List Token) (q : Progress) (y : Place), Takes (.ofTokens tokens) taken q ∧
      e = q.failure ∧ (∃ s ∈ Sentence.grammar.matches', taken.map Token.kind <+: s) ∧
      ¬ Sentence.Viable (taken.map Token.kind ++ [q.word.kind]) ∧
      Place.start.run (taken.map Token.kind) = some y ∧ q.opened.reverse = y.openRules := by
  have hfinish : ((Progress.ofTokens tokens).enter .grammar).finish.kind = .endOfInput := rfl
  have htracks := tracks_productionList hfinish rfl (x := Place.start) rfl
  rw [parse, grammar_eq] at h
  cases hresult : productionList ((Progress.ofTokens tokens).enter .grammar) with
  | error e' q =>
      rw [hresult] at h htracks
      cases h
      cases htracks with
      | error _ hleads hopened =>
          rcases hleads with ⟨taken, htakes, hrun⟩
          rcases (decides_productionList hfinish).refused hresult with
            ⟨hfailure, taken', htakes', hbegins, hnone⟩
          obtain rfl := htakes.unique htakes'
          refine ⟨taken, q, _, ⟨htakes.rest, htakes.finish⟩, hfailure, hbegins, ?_, hrun, hopened⟩
          rintro ⟨s, hs, hfront⟩
          exact hnone s ⟨hs, _, List.mem_singleton_self _, hfront⟩
  | ok list q =>
      -- The production sets only end before the end of the input.
      rw [hresult] at h htracks
      cases htracks with
      | ok _ _ hpost =>
          have hend : q.word.kind = .endOfInput := List.mem_singleton.1 hpost.2
          simp only [hend, if_true] at h
          cases h

/-- The rules that a failure reports as open depend only on the tokens before the one at which no
grammar can go on: on the number of complete production sets and on the kinds of the words in the
unfinished one. The innermost of them is the rule that is reported as expected, and it is one of
four: the words that the other four rules look for are certain to come. -/
theorem parse_error_open_rules (h : parse tokens = .error e) :
    ∃ (taken rest : List Token) (t : Token),
      tokens = taken ++ rest ∧
      t = rest.headD (Token.finish ((tokens.getLast?.map Token.line).getD 1)) ∧
      e.got = t.kind ∧ e.line = t.line ∧ e.text = t.value ∧
      Sentence.Viable (taken.map Token.kind) ∧
      ¬ Sentence.Viable (taken.map Token.kind ++ [t.kind]) ∧
      (∃ (sets : List (List TokenKind)) (unfinished : List TokenKind),
        taken.map Token.kind = sets.flatten ++ unfinished ∧
        (∀ set ∈ sets, set ∈ Sentence.block.matches') ∧ .semicolon ∉ unfinished ∧
        e.stack = Rule.openBehind sets.length unfinished) ∧
      e.stack.getLast? = some e.expected ∧
      e.expected ∈ [Rule.productionSet, .productionSetTail, .rightHandSide, .symbolListTail] := by
  rcases exists_place_of_error h with
    ⟨taken, q, y, htakes, rfl, ⟨s, hs, hbegins⟩, hnot, hrun, hopened⟩
  rcases Sentence.exists_sets_of_mem_grammar hs with ⟨all, rfl, hall⟩
  rcases Sentence.exists_complete_of_prefix hall hbegins with
    ⟨sets, unfinished, hkinds, hsets, hunfinished⟩
  have hstack : q.opened.reverse = Rule.openBehind sets.length unfinished := by
    rw [hkinds] at hrun
    rw [hopened]
    exact Place.openRules_eq_openBehind
      (fun set hset => Sentence.exists_opening_of_mem_block (hsets set hset)) hunfinished hrun
  rcases y.exists_innermost with ⟨outer, rule, hinnermost, hrule⟩
  have hlist : q.opened = rule :: outer.reverse := by
    rw [List.reverse_eq_iff.1 (hopened.trans hinnermost), List.reverse_concat]
  have hexpected : q.failure.expected = rule := by
    simp [Progress.failure, hlist]
  refine ⟨taken, q.rest, q.word, htakes.rest, ?_, rfl, rfl, rfl,
    ⟨_, hs, hbegins.trans (List.prefix_append _ _)⟩, hnot,
    ⟨sets, unfinished, hkinds, hsets, hunfinished, hstack⟩, ?_, hexpected ▸ hrule⟩
  · rw [Progress.word, htakes.finish]
    rfl
  · rw [hexpected]
    exact (congrArg List.getLast? (hopened.trans hinnermost)).trans (by simp)

/-- `A : x; B : EPSILON; C : a b | c d :`, where a colon stands in the second alternative of the
third production set. -/
def strayColon : List Token :=
  [⟨.symbol, "A", 1⟩, ⟨.derives, ":", 1⟩, ⟨.symbol, "x", 1⟩, ⟨.semicolon, ";", 1⟩,
    ⟨.symbol, "B", 2⟩, ⟨.derives, ":", 2⟩, ⟨.epsilon, "EPSILON", 2⟩, ⟨.semicolon, ";", 2⟩,
    ⟨.symbol, "C", 3⟩, ⟨.derives, ":", 3⟩, ⟨.symbol, "a", 3⟩, ⟨.symbol, "b", 3⟩,
    ⟨.alsoDerives, "|", 3⟩, ⟨.symbol, "c", 3⟩, ⟨.symbol, "d", 3⟩, ⟨.derives, ":", 4⟩]

theorem parse_error_open_rules_strayColon :
    parse strayColon = .error
        { expected := .symbolListTail
          got := .derives
          line := 4
          text := ":"
          stack := Rule.openBehind 2
            [.symbol, .derives, .symbol, .symbol, .alsoDerives, .symbol, .symbol] } ∧
      Sentence.Viable ((strayColon.take 15).map Token.kind) ∧
      ¬ Sentence.Viable (strayColon.map Token.kind) := by
  have herror : parse strayColon = .error
      { expected := .symbolListTail
        got := .derives
        line := 4
        text := ":"
        stack := [.grammar, .productionList, .productionListTail, .productionListTail,
          .productionSet, .productionSetTail, .rightHandSide, .symbolList, .symbolListTail,
          .symbolListTail] } :=
    rfl
  rcases parse_error_open_rules herror with
    ⟨taken, rest, t, htokens, rfl, hgot, hline, _, hviable, hnot, _⟩
  -- The last token is the only colon on its line.
  have hrest : rest = strayColon.drop taken.length := by
    rw [htokens, List.drop_left]
  have htaken : taken = strayColon.take taken.length := by
    rw [htokens, List.take_left]
  have hlast : ∀ i < 17, TokenKind.derives =
      ((strayColon.drop i).headD (Token.finish 4)).kind →
      4 = ((strayColon.drop i).headD (Token.finish 4)).line → i = 15 := by
    decide
  have hlength : taken.length < 17 := by
    have htotal : 16 = (taken ++ rest).length := congrArg List.length htokens
    rw [List.length_append] at htotal
    omega
  have hplace : taken.length = 15 := by
    rw [hrest] at hgot hline
    exact hlast taken.length hlength hgot hline
  rw [hplace] at hrest htaken
  subst hrest htaken
  exact ⟨herror, hviable, hnot⟩

end Node
end BnfGrammar
