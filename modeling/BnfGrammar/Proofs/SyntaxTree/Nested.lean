import BnfGrammar.Proofs.SyntaxTree.Parse

/-!
# Tails by nested calls

The parser expands a tail round by round and nests the rounds into one another at the end. The plain
way to expand it is a procedure that calls itself: it opens the rule, and unless the rule may end
there it reads a round, calls itself for the rest, and closes the rule behind both. This file
defines

* `Parse.nestedTail limit`: that procedure, with calls that are at most `limit` deep;
* `Parse.grammarBy tail`: the procedures of the parser with `tail` for the expansion of tails.

The two ways to expand tails give the same tree, or fail in the same way with the same open rules,
and enter the same rules in the same order, on every list of tokens. A tail that is expanded round
by round satisfies the equation of the procedure (`expandTail_eq_nestedCall`): it restores the open
rules at its end, and its rounds leave them as they find them. Every call takes a token before it
calls itself, so no more calls are open than there are tokens, and one.
-/

namespace BnfGrammar
namespace Parse

variable {α β ι : Type} {p q : Progress}

/-! ## The nested parser -/

/-- One call of the procedure for a tail; `inner` is the call that it makes itself. -/
def nestedCall (rule : Rule) (body : Reader (List Node)) (inner : Reader Node) : Reader Node :=
  expand rule do
    if ← mayEnd rule then
      return []
    else
      let children ← body
      let last ← inner
      return children ++ [last]

/-- Expands a tail by calls within calls. It gives up where they would be more than `limit` deep. -/
def nestedTail : Nat → Rule → Reader (List Node) → Reader Node
  | 0, _, _ => fail
  | limit + 1, rule, body => nestedCall rule body (nestedTail limit rule body)

section Procedures

variable (tail : Rule → Reader (List Node) → Reader Node)

def symbolListTailBy : Reader Node :=
  tail .symbolListTail do
    return [← expect .symbol]

def symbolListBy : Reader Node :=
  expand .symbolList do
    let first ← expect .symbol
    let others ← symbolListTailBy tail
    return [first, others]

/-- Reads what stands below the expansion of a right-hand side that starts with a kind of word. -/
def contentBy : TokenKind → Reader (List Node)
  | .epsilon => do return [← expect .epsilon]
  | .symbol => do return [← symbolListBy tail]
  | _ => fail

def rightHandSideBy : Reader Node :=
  expand .rightHandSide do
    contentBy tail (← get).word.kind

def productionSetTailBy : Reader Node :=
  tail .productionSetTail do
    let bar ← expect .alsoDerives
    let alternative ← rightHandSideBy tail
    return [bar, alternative]

def productionSetBy : Reader Node :=
  expand .productionSet do
    let head ← expect .symbol
    let colon ← expect .derives
    let alternative ← rightHandSideBy tail
    let others ← productionSetTailBy tail
    return [head, colon, alternative, others]

def productionListTailBy : Reader Node :=
  tail .productionListTail do
    let set ← productionSetBy tail
    let stop ← expect .semicolon
    return [set, stop]

def productionListBy : Reader Node :=
  expand .productionList do
    let set ← productionSetBy tail
    let stop ← expect .semicolon
    let others ← productionListTailBy tail
    return [set, stop, others]

/-- Reads a grammar up to the end of the input. -/
def grammarBy : Reader Node :=
  expand .grammar do
    let list ← productionListBy tail
    let stop ← expect .endOfInput
    return [list, stop]

end Procedures

/-- The parser is the member of the family that expands tails round by round. -/
theorem grammarBy_expandTail : grammarBy expandTail = grammar :=
  rfl

/-! ## Sequences -/

theorem bind_congr_at {reader reader' : Reader α} {after after' : α → Reader β}
    (h : reader p = reader' q) (hafter : ∀ a r, reader' q = .ok a r → after a r = after' a r) :
    (reader >>= after) p = (reader' >>= after') q := by
  change EStateM.bind reader after p = EStateM.bind reader' after' q
  unfold EStateM.bind
  rw [h]
  cases hresult : reader' q with
  | ok a r => exact hafter a r hresult
  | error e r => rfl

/-! ## Open rules -/

/-- A reader that succeeds with the same open rules as before. -/
def KeepsOpened (reader : Reader α) : Prop :=
  ∀ ⦃p q : Progress⦄ ⦃a : α⦄, reader p = .ok a q → q.opened = p.opened

namespace KeepsOpened

theorem pure (a : α) : KeepsOpened (Pure.pure a : Reader α) := by
  intro p q b h
  cases h
  rfl

theorem fail : KeepsOpened (Parse.fail : Reader α) := by
  intro p q a h
  cases h

theorem bind {reader : Reader α} {after : α → Reader β} (h : KeepsOpened reader)
    (hafter : ∀ a, KeepsOpened (after a)) : KeepsOpened (reader >>= after) := by
  intro p q b hboth
  rcases bind_eq_ok_iff.1 hboth with ⟨a, p', hfirst, hsecond⟩
  exact (hafter a hsecond).trans (h hfirst)

theorem map {reader : Reader α} (f : α → β) (h : KeepsOpened reader) :
    KeepsOpened (do return f (← reader)) :=
  h.bind fun a => pure (f a)

theorem choose {readers : TokenKind → Reader α} (h : ∀ kind, KeepsOpened (readers kind)) :
    KeepsOpened (do readers (← get).word.kind) := by
  intro p q a hchoice
  exact h p.word.kind hchoice

theorem expect (kind : TokenKind) : KeepsOpened (Parse.expect kind) := by
  intro p q n h
  rw [expect_eq] at h
  by_cases hkind : p.word.kind = kind
  · rw [if_pos hkind] at h
    cases h
    rfl
  · rw [if_neg hkind] at h
    cases h

/-- The rule that is opened first is closed again. -/
theorem expand (rule : Rule) {body : Reader (List Node)} (h : KeepsOpened body) :
    KeepsOpened (Parse.expand rule body) := by
  intro p q n hexpand
  rcases bind_eq_ok_iff.1 hexpand with ⟨_, p₁, henter, hrest⟩
  rcases bind_eq_ok_iff.1 hrest with ⟨children, p₂, hbody, hlast⟩
  cases henter
  cases hlast
  exact congrArg List.tail (h hbody)

theorem expandTail (rule : Rule) (body : Reader (List Node)) :
    KeepsOpened (Parse.expandTail rule body) := by
  intro p q n h
  rcases expandTail_eq_ok_iff.1 h with ⟨done, p', _, _, rfl⟩
  rfl

end KeepsOpened

/-! ## Rounds and calls -/

theorem nestedCall_eq (rule : Rule) (body : Reader (List Node)) (inner : Reader Node)
    (p : Progress) :
    nestedCall rule body inner p =
      if rule.emptyBefore.contains p.word.kind then
        .ok (Node.expansion rule []) (p.enter rule).leave
      else
        (body >>= fun children => inner >>= fun last => do
          modify Progress.leave
          return Node.expansion rule (children ++ [last])) (p.enter rule) := by
  have hwhole : nestedCall rule body inner p =
      ((if rule.emptyBefore.contains p.word.kind then pure []
        else body >>= fun children => inner >>= fun last => pure (children ++ [last])) >>=
          fun children => do
            modify Progress.leave
            return Node.expansion rule children) (p.enter rule) :=
    rfl
  rw [hwhole]
  by_cases hend : rule.emptyBefore.contains p.word.kind = true
  · rw [if_pos hend, if_pos hend]
    rfl
  · rw [if_neg hend, if_neg hend]
    simp only [bind_assoc, pure_bind]

/-- Rounds that were read before do not matter to those that are still to be read. -/
theorem rounds_eq_map (rule : Rule) (body : Reader (List Node)) :
    ∀ (limit : Nat) (done : List (List Node)),
      rounds rule body limit done = (· ++ done) <$> rounds rule body limit [] := by
  intro limit
  induction limit with
  | zero =>
      intro done
      simp [rounds]
  | succ limit ih =>
      intro done
      funext p
      change _ = EStateM.map (· ++ done) (rounds rule body (limit + 1) []) p
      unfold EStateM.map
      rw [rounds_succ, rounds_succ]
      by_cases hend : rule.emptyBefore.contains p.word.kind = true
      · rw [if_pos hend, if_pos hend]
        rfl
      · rw [if_neg hend, if_neg hend]
        have hmap : (body >>= fun children => rounds rule body limit (children :: done)) =
            (· ++ done) <$> (body >>= fun children => rounds rule body limit [children]) := by
          rw [map_bind]
          congr 1
          funext children
          rw [ih (children :: done), ih [children], Functor.map_map]
          simp
        rw [hmap]
        rfl

section Tails

variable {rule : Rule} {body body' : Reader (List Node)} {children : ι → List Node}
  {words : ι → List Outline.Word} {next : TokenKind → Prop} {start : TokenKind}

/-- A limit that leaves one round for each token and one more is as good as any other. -/
theorem rounds_eq_of_lt (hbody : Reads body children words next)
    (hstart : ∀ item, ∃ text more, words item = (start, text) :: more) :
    ∀ (limit limit' : Nat) (done : List (List Node)) {p : Progress},
      p.finish.kind = .endOfInput → p.rest.length < limit → p.rest.length < limit' →
      rounds rule body limit done p = rounds rule body limit' done p := by
  intro limit
  induction limit with
  | zero =>
      intro limit' done p _ hlimit _
      omega
  | succ limit ih =>
      intro limit' done p hfinish hlimit hlimit'
      rcases Nat.exists_eq_add_one_of_ne_zero (Nat.ne_zero_of_lt hlimit') with ⟨limit', rfl⟩
      rw [rounds_succ, rounds_succ]
      by_cases hend : rule.emptyBefore.contains p.word.kind = true
      · rw [if_pos hend, if_pos hend]
      · rw [if_neg hend, if_neg hend]
        refine bind_congr_at rfl ?_
        intro round q hround
        have hfinish' : (p.enter rule).finish.kind = .endOfInput := hfinish
        have hshorter := rest_length_lt hbody hstart hfinish hround
        rcases hbody.sound hfinish' hround with ⟨_, _, _, hkept, _, _⟩
        exact ih limit' (round :: done) (hkept ▸ hfinish) (by omega) (by omega)

/-- The rounds behind the first are the expansion of the tail from there. -/
theorem rounds_bind_nestRounds (hbody : Reads body children words next)
    (hstart : ∀ item, ∃ text more, words item = (start, text) :: more) {limit : Nat}
    (round : List Node) (hfinish : q.finish.kind = .endOfInput) (hlimit : q.rest.length < limit)
    (hopened : q.opened = rule :: p.opened) :
    (rounds rule body limit [round] >>= fun done => do
        modify fun r => { r with opened := p.opened }
        return nestRounds rule done) q =
      (expandTail rule body >>= fun last => do
        modify Progress.leave
        return Node.expansion rule (round ++ [last])) q := by
  have hmap : (rounds rule body limit [round] >>= fun done => do
        modify fun r => { r with opened := p.opened }
        return nestRounds rule done) =
      (rounds rule body limit [] >>= fun done => do
        modify fun r => { r with opened := p.opened }
        return nestRounds rule (done ++ [round])) := by
    rw [rounds_eq_map, bind_map_left]
  have htail : (expandTail rule body >>= fun last => do
        modify Progress.leave
        return Node.expansion rule (round ++ [last])) q =
      (rounds rule body (q.rest.length + 1) [] >>= fun done => do
        modify fun r => { r with opened := q.opened.tail }
        return Node.expansion rule (round ++ [nestRounds rule done])) q := by
    rw [bind_congr_at (expandTail_eq rule body q) fun _ _ _ => rfl, bind_assoc]
    exact bind_congr_at rfl fun _ _ _ => rfl
  rw [hmap, htail, hopened]
  refine bind_congr_at (rounds_eq_of_lt hbody hstart _ _ [] hfinish hlimit
    (Nat.lt_succ_self _)) ?_
  intro done r _
  have hnest : nestRounds rule (done ++ [round]) =
      Node.expansion rule (round ++ [nestRounds rule done]) := by
    simp [nestRounds]
  rw [hnest]
  rfl

/-- A tail that is expanded round by round is the procedure that calls itself. -/
theorem expandTail_eq_nestedCall (hbody : Reads body children words next)
    (hstart : ∀ item, ∃ text more, words item = (start, text) :: more) (hkeeps : KeepsOpened body)
    (hfinish : p.finish.kind = .endOfInput) :
    expandTail rule body p = nestedCall rule body (expandTail rule body) p := by
  rw [nestedCall_eq]
  by_cases hend : rule.emptyBefore.contains p.word.kind = true
  · rw [if_pos hend]
    have hrounds : rounds rule body (p.rest.length + 1) [] p = .ok [] (p.enter rule) := by
      rw [rounds_succ, if_pos hend]
    exact expandTail_eq_ok_iff.2 ⟨[], p.enter rule, hrounds, rfl, rfl⟩
  · rw [if_neg hend, expandTail_eq]
    have hrounds : rounds rule body (p.rest.length + 1) [] p =
        (body >>= fun round => rounds rule body p.rest.length [round]) (p.enter rule) := by
      rw [rounds_succ, if_neg hend]
    rw [bind_congr_at hrounds fun _ _ _ => rfl, bind_assoc]
    refine bind_congr_at rfl ?_
    intro round q hround
    have hfinish' : (p.enter rule).finish.kind = .endOfInput := hfinish
    have hshorter := rest_length_lt hbody hstart hfinish hround
    rcases hbody.sound hfinish' hround with ⟨_, _, _, hkept, _, _⟩
    exact rounds_bind_nestRounds hbody hstart round (hkept ▸ hfinish) hshorter (hkeeps hround)

end Tails

/-! ## Readers that agree -/

/-- Two readers with the same result where fewer tokens are left than the limit says. -/
def Agrees (limit : Nat) (reader reader' : Reader α) : Prop :=
  ∀ p : Progress, p.finish.kind = .endOfInput → p.rest.length < limit → reader p = reader' p

namespace Agrees

variable {limit : Nat}

theorem refl (reader : Reader α) : Agrees limit reader reader :=
  fun _ _ _ => rfl

theorem bind {reader reader' : Reader α} {after after' : α → Reader β} {value : ι → α}
    {words : ι → List Outline.Word} {next : TokenKind → Prop}
    (hreads : Reads reader' value words next) (h : Agrees limit reader reader')
    (hafter : ∀ a, Agrees limit (after a) (after' a)) :
    Agrees limit (reader >>= after) (reader' >>= after') := by
  intro p hfinish hlimit
  refine bind_congr_at (h p hfinish hlimit) ?_
  intro a q hresult
  -- No reader gives tokens back, so there are still fewer than the limit says.
  rcases hreads.sound hfinish hresult with ⟨_, taken, hrest, hkept, _, _⟩
  have hlength := congrArg List.length hrest
  rw [List.length_append] at hlength
  exact hafter a q (hkept ▸ hfinish) (by omega)

theorem expect_bind {kind : TokenKind} {after after' : Node → Reader β}
    (hkind : kind ≠ .endOfInput) (hafter : ∀ n, Agrees limit (after n) (after' n)) :
    Agrees limit (expect kind >>= after) (expect kind >>= after') := by
  have hword : Reads (expect kind) (Node.word kind) (fun text => [(kind, text)]) fun _ => True :=
    reads_expect hkind
  exact bind hword (refl _) hafter

theorem expand (rule : Rule) {body body' : Reader (List Node)} (h : Agrees limit body body') :
    Agrees limit (Parse.expand rule body) (Parse.expand rule body') := by
  intro p hfinish hlimit
  have hbody : body (p.enter rule) = body' (p.enter rule) := h (p.enter rule) hfinish hlimit
  refine bind_congr_at rfl ?_
  intro _ q henter
  cases henter
  exact bind_congr_at hbody fun _ _ _ => rfl

/-- Calls within calls agree with rounds, if the limit leaves one call for each token and one. -/
theorem tail {rule : Rule} {body body' : Reader (List Node)} {children : ι → List Node}
    {words : ι → List Outline.Word} {next : TokenKind → Prop} {start : TokenKind}
    (hbody : Reads body' children words next)
    (hstart : ∀ item, ∃ text more, words item = (start, text) :: more)
    (hkeeps : KeepsOpened body') (h : Agrees limit body body') :
    Agrees limit (nestedTail limit rule body) (expandTail rule body') := by
  -- By induction on the depth that is left, which is more than the number of tokens that are left.
  have hdepth : ∀ (depth : Nat) {p : Progress}, depth ≤ limit → p.finish.kind = .endOfInput →
      p.rest.length < depth → nestedTail depth rule body p = expandTail rule body' p := by
    intro depth
    induction depth with
    | zero =>
        intro p _ _ hlength
        omega
    | succ depth ih =>
        intro p hle hfinish hlength
        rw [expandTail_eq_nestedCall hbody hstart hkeeps hfinish, nestedTail, nestedCall_eq,
          nestedCall_eq]
        by_cases hend : rule.emptyBefore.contains p.word.kind = true
        · rw [if_pos hend, if_pos hend]
        · rw [if_neg hend, if_neg hend]
          have hfinish' : (p.enter rule).finish.kind = .endOfInput := hfinish
          have hentered : (p.enter rule).rest.length < limit := Nat.lt_of_lt_of_le hlength hle
          refine bind_congr_at (h (p.enter rule) hfinish' hentered) ?_
          intro round q hround
          have hshorter := rest_length_lt hbody hstart hfinish hround
          rcases hbody.sound hfinish' hround with ⟨_, _, _, hkept, _, _⟩
          refine bind_congr_at ?_ fun _ _ _ => rfl
          exact ih (Nat.le_of_succ_le hle) (hkept ▸ hfinish) (by omega)
  intro p hfinish hlimit
  exact hdepth limit le_rfl hfinish hlimit

end Agrees

/-! ## The procedures of both parsers -/

theorem keepsOpened_otherName : KeepsOpened (do return [← expect .symbol]) :=
  (KeepsOpened.expect .symbol).map _

theorem keepsOpened_symbolList : KeepsOpened symbolList :=
  .expand .symbolList ((KeepsOpened.expect .symbol).bind fun _ =>
    (KeepsOpened.expandTail .symbolListTail _).map _)

theorem keepsOpened_rightHandSide : KeepsOpened rightHandSide := by
  have hcontent : ∀ kind, KeepsOpened (content kind) := by
    intro kind
    cases kind with
    | epsilon => exact (KeepsOpened.expect .epsilon).map _
    | symbol => exact keepsOpened_symbolList.map _
    | semicolon | derives | alsoDerives | endOfInput => exact .fail
  exact .expand .rightHandSide (KeepsOpened.choose hcontent)

/-- A bar and the alternative behind it. -/
theorem keepsOpened_other :
    KeepsOpened
      (do let bar ← expect .alsoDerives; let alternative ← rightHandSide; return [bar, alternative]) :=
  (KeepsOpened.expect .alsoDerives).bind fun _ => keepsOpened_rightHandSide.map _

theorem keepsOpened_productionSet : KeepsOpened productionSet :=
  .expand .productionSet ((KeepsOpened.expect .symbol).bind fun _ =>
    (KeepsOpened.expect .derives).bind fun _ => keepsOpened_rightHandSide.bind fun _ =>
      (KeepsOpened.expandTail .productionSetTail _).map _)

/-- A production set with its semicolon. -/
theorem keepsOpened_block :
    KeepsOpened (do let set ← productionSet; let stop ← expect .semicolon; return [set, stop]) :=
  keepsOpened_productionSet.bind fun _ => (KeepsOpened.expect .semicolon).map _

section Procedures

variable (limit : Nat)

theorem agrees_symbolListTail :
    Agrees limit (symbolListTailBy (nestedTail limit)) symbolListTail :=
  Agrees.tail reads_otherName (fun name => ⟨name, [], rfl⟩) keepsOpened_otherName (Agrees.refl _)

theorem agrees_symbolList : Agrees limit (symbolListBy (nestedTail limit)) symbolList := by
  refine Agrees.expand .symbolList (Agrees.expect_bind (by decide) ?_)
  intro first
  exact Agrees.bind reads_symbolListTail (agrees_symbolListTail limit) fun _ => Agrees.refl _

theorem agrees_rightHandSide :
    Agrees limit (rightHandSideBy (nestedTail limit)) rightHandSide := by
  have hcontent : ∀ kind, Agrees limit (contentBy (nestedTail limit) kind) (content kind) := by
    intro kind
    cases kind with
    | symbol =>
        exact Agrees.bind reads_symbolList (agrees_symbolList limit) fun _ => Agrees.refl _
    | epsilon | semicolon | derives | alsoDerives | endOfInput => exact Agrees.refl _
  refine Agrees.expand .rightHandSide ?_
  intro p hfinish hlimit
  exact hcontent p.word.kind p hfinish hlimit

theorem agrees_productionSetTail :
    Agrees limit (productionSetTailBy (nestedTail limit)) productionSetTail := by
  refine Agrees.tail reads_other (fun other => ⟨other.1, other.2.words, rfl⟩) keepsOpened_other
    (Agrees.expect_bind (by decide) ?_)
  intro bar
  exact Agrees.bind reads_rightHandSide (agrees_rightHandSide limit) fun _ => Agrees.refl _

theorem agrees_productionSet :
    Agrees limit (productionSetBy (nestedTail limit)) productionSet := by
  refine Agrees.expand .productionSet (Agrees.expect_bind (by decide) ?_)
  intro head
  refine Agrees.expect_bind (by decide) ?_
  intro colon
  refine Agrees.bind reads_rightHandSide (agrees_rightHandSide limit) ?_
  intro alternative
  exact Agrees.bind reads_productionSetTail (agrees_productionSetTail limit) fun _ => Agrees.refl _

theorem agrees_productionListTail :
    Agrees limit (productionListTailBy (nestedTail limit)) productionListTail :=
  Agrees.tail reads_block (fun b => ⟨b.head, _, rfl⟩) keepsOpened_block
    (Agrees.bind reads_productionSet (agrees_productionSet limit) fun _ => Agrees.refl _)

theorem agrees_productionList :
    Agrees limit (productionListBy (nestedTail limit)) productionList := by
  refine Agrees.expand .productionList
    (Agrees.bind reads_productionSet (agrees_productionSet limit) ?_)
  intro set
  refine Agrees.expect_bind (by decide) ?_
  intro stop
  exact Agrees.bind reads_productionListTail (agrees_productionListTail limit)
    fun _ => Agrees.refl _

theorem agrees_grammar : Agrees limit (grammarBy (nestedTail limit)) grammar :=
  Agrees.expand .grammar
    (Agrees.bind reads_productionList (agrees_productionList limit) fun _ => Agrees.refl _)

end Procedures
end Parse

/-! ## Whole parses -/

/-- The syntax tree of a list of tokens by calls within calls, at most `limit` deep, or the failure
at the first token that cannot stand where it does. -/
def Node.parseNested (limit : Nat) (tokens : List Token) : Except ParseError Node :=
  match Parse.grammarBy (Parse.nestedTail limit) (.ofTokens tokens) with
  | .ok tree _ => .ok tree
  | .error e _ => .error e

/-- The rules that such a parse enters, each with the text of the token at hand. -/
def Node.parseNestedTrace (limit : Nat) (tokens : List Token) : List (Rule × String) :=
  match Parse.grammarBy (Parse.nestedTail limit) (.ofTokens tokens) with
  | .ok _ p => p.entered.reverse
  | .error _ p => p.entered.reverse

/-- To expand tails by calls within calls makes no difference, as long as the calls may be deeper
than there are tokens: the same tree, or the same failure in all its parts, and the same rules
entered. -/
theorem Node.parseNested_eq_parse {limit : Nat} {tokens : List Token}
    (hlimit : tokens.length < limit) :
    parseNested limit tokens = parse tokens ∧
      parseNestedTrace limit tokens = parseTrace tokens := by
  have hgrammar : Parse.grammarBy (Parse.nestedTail limit) (.ofTokens tokens) =
      Parse.grammar (.ofTokens tokens) :=
    Parse.agrees_grammar limit (.ofTokens tokens) rfl hlimit
  refine ⟨?_, ?_⟩
  · rw [parseNested, hgrammar]
    rfl
  · rw [parseNestedTrace, hgrammar]
    rfl

/-- `A : a b :`, where the second colon stands behind two names, in the second round of a tail. -/
def Token.doubledColon : List Token :=
  [⟨.symbol, "A", 1⟩, ⟨.derives, ":", 1⟩, ⟨.symbol, "a", 1⟩, ⟨.symbol, "b", 2⟩, ⟨.derives, ":", 2⟩]

theorem Node.parseNested_eq_parse_doubledColon :
    Token.doubledColon.length < 6 ∧
      parseNested 6 Token.doubledColon = .error
        { expected := .symbolListTail
          got := .derives
          line := 2
          text := ":"
          stack := [.grammar, .productionList, .productionSet, .rightHandSide, .symbolList,
            .symbolListTail, .symbolListTail] } ∧
      parseNestedTrace 6 Token.doubledColon = parseTrace Token.doubledColon := by
  have hlimit : Token.doubledColon.length < 6 := by
    decide
  rcases parseNested_eq_parse hlimit with ⟨hresult, htrace⟩
  refine ⟨hlimit, ?_, htrace⟩
  rw [hresult]
  rfl

end BnfGrammar
