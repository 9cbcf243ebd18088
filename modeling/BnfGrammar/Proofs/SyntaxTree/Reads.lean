import BnfGrammar.Proofs.SyntaxTree.Outline
import BnfGrammar.SyntaxTree.Parse

/-!
# What readers accept

A reader that succeeds has taken some words off the front of the tokens. What it can read are the
words of some items, and its result is the value of the item. `Reads reader value words next` says
that

* the reader only succeeds with the value of an item, and has then taken the words of the item;
* it does succeed whenever the words of an item stand at the front, provided that the kind of the
  word behind them is one that `next` admits;
* it has the same result, or fails in the same way, at any two places that differ only behind the
  first end of the input.

The second part needs the word behind because tails look at it to find out whether they may end. The
procedures of the parser are put together by sequencing, by expanding a rule and by expanding a
tail, and there is one lemma for each of these.
-/

namespace BnfGrammar

namespace Token

/-- The kind and the text of a token, without its line. -/
def word (t : Token) : Outline.Word :=
  (t.kind, t.value)

/-- The tokens before the first end of the input. -/
def beforeEnd (tokens : List Token) : List Token :=
  tokens.takeWhile fun t => t.kind ≠ .endOfInput

/-- The first end of the input, or the given token if there is none. -/
def firstEnd (finish : Token) (tokens : List Token) : Token :=
  (tokens.find? fun t => t.kind = .endOfInput).getD finish

end Token

namespace Parse

open Outline

variable {α β ι κ : Type} {p q : Progress}

/-! ## Places that look alike -/

/-- The tokens that can be read: those up to the first end of the input. -/
def Progress.visible (p : Progress) : List Token :=
  Token.beforeEnd p.rest ++ [Token.firstEnd p.finish p.rest]

theorem Progress.visible_eq (p : Progress) :
    p.visible =
      if p.rest = [] ∨ p.word.kind = .endOfInput then [p.word] else p.word :: p.advance.visible := by
  rcases p with ⟨rest, finish, opened, entered⟩
  cases rest with
  | nil => simp [visible, word, Token.beforeEnd, Token.firstEnd]
  | cons t rest =>
      by_cases hend : t.kind = .endOfInput
      · simp [visible, word, Token.beforeEnd, Token.firstEnd, hend]
      · simp [visible, word, advance, Token.beforeEnd, Token.firstEnd, hend]

/-- Two progresses with the same tokens to read and the same open rules. -/
structure Alike (p q : Progress) : Prop where
  finish_left : p.finish.kind = .endOfInput
  finish_right : q.finish.kind = .endOfInput
  visible : p.visible = q.visible
  opened : p.opened = q.opened

namespace Alike

theorem word (h : Alike p q) : p.word = q.word := by
  -- The word at hand is the first that can be read.
  have hhead := congrArg List.head? h.visible
  rw [p.visible_eq, q.visible_eq] at hhead
  split at hhead <;> split at hhead <;> simpa using hhead

theorem failure (h : Alike p q) : p.failure = q.failure := by
  simp [Progress.failure, h.word, h.opened]

theorem advance (h : Alike p q) (hword : p.word.kind ≠ .endOfInput) :
    Alike p.advance q.advance := by
  -- A word of another kind is a token, so both have one token less to read.
  have hnonempty : ∀ r : Progress, r.finish.kind = .endOfInput → r.word.kind ≠ .endOfInput →
      ¬ (r.rest = [] ∨ r.word.kind = .endOfInput) := by
    rintro r hfinish hkind (hnil | hend)
    · exact hkind (by simpa [Progress.word, hnil] using hfinish)
    · exact hkind hend
  have hvisible := h.visible
  rw [p.visible_eq, q.visible_eq, if_neg (hnonempty p h.finish_left hword),
    if_neg (hnonempty q h.finish_right (h.word ▸ hword))] at hvisible
  exact ⟨h.finish_left, h.finish_right, (List.cons.inj hvisible).2, h.opened⟩

theorem enter (rule : Rule) (h : Alike p q) : Alike (p.enter rule) (q.enter rule) :=
  ⟨h.finish_left, h.finish_right, h.visible, congrArg (rule :: ·) h.opened⟩

theorem leave (h : Alike p q) : Alike p.leave q.leave :=
  ⟨h.finish_left, h.finish_right, h.visible, congrArg List.tail h.opened⟩

end Alike

/-- Two results that are the same but for what comes behind the first end of the input. -/
inductive Agree : EStateM.Result ParseError Progress α → EStateM.Result ParseError Progress α → Prop
  | ok (a : α) {p q : Progress} : Alike p q → Agree (.ok a p) (.ok a q)
  | error (e : ParseError) (p q : Progress) : Agree (.error e p) (.error e q)

/-- A reader of items that admits some kinds of words behind them. -/
structure Reads (reader : Reader α) (value : ι → α) (words : ι → List Word)
    (next : TokenKind → Prop) : Prop where
  sound : ∀ {p p' : Progress} {a : α}, p.finish.kind = .endOfInput → reader p = .ok a p' →
    ∃ (item : ι) (taken : List Token), p.rest = taken ++ p'.rest ∧ p'.finish = p.finish ∧
      taken.map Token.word = words item ∧ a = value item
  complete : ∀ (item : ι) {p : Progress} {taken rest : List Token}, p.finish.kind = .endOfInput →
    p.rest = taken ++ rest → taken.map Token.word = words item → next (rest.headD p.finish).kind →
    ∃ p', reader p = .ok (value item) p' ∧ p'.rest = rest ∧ p'.finish = p.finish
  agree : ∀ {p q : Progress}, Alike p q → Agree (reader p) (reader q)

/-! ## Sequences -/

theorem bind_eq_ok_iff {reader : Reader α} {after : α → Reader β} {p q : Progress} {b : β} :
    (reader >>= after) p = .ok b q ↔ ∃ a p', reader p = .ok a p' ∧ after a p' = .ok b q := by
  change EStateM.bind reader after p = .ok b q ↔ _
  unfold EStateM.bind
  cases reader p with
  | ok a p' =>
      constructor
      · intro h
        exact ⟨a, p', rfl, h⟩
      · rintro ⟨a', p'', hfirst, h⟩
        cases hfirst
        exact h
  | error e p' => simp

theorem Agree.bind {reader reader' : Reader α} {after after' : α → Reader β}
    (h : Agree (reader p) (reader' q))
    (hafter : ∀ a p' q', reader p = .ok a p' → reader' q = .ok a q' → Alike p' q' →
      Agree (after a p') (after' a q')) :
    Agree ((reader >>= after) p) ((reader' >>= after') q) := by
  change Agree (EStateM.bind reader after p) (EStateM.bind reader' after' q)
  unfold EStateM.bind
  generalize hfirst : reader p = result at h
  generalize hfirst' : reader' q = result' at h
  cases h with
  | ok a halike => exact hafter a _ _ hfirst hfirst' halike
  | error e p' q' => exact .error e p' q'

namespace Reads

variable {reader : Reader α} {after : α → Reader β} {value : ι → α} {value' : ι → κ → β}
  {words : ι → List Word} {words' : κ → List Word} {next next' : TokenKind → Prop}

/-- A reader that takes nothing. -/
theorem pure (a : α) :
    Reads (Pure.pure a : Reader α) (fun _ : Unit => a) (fun _ => []) next := by
  refine ⟨?_, ?_, ?_⟩
  · intro p p' b _ h
    cases h
    exact ⟨(), [], rfl, rfl, rfl, rfl⟩
  · intro _ p taken rest _ hrest hwords _
    obtain rfl := List.map_eq_nil_iff.1 hwords
    exact ⟨p, rfl, hrest, rfl⟩
  · intro p q halike
    exact .ok a halike

/-- One reader after another. The kinds that may come after the first are those that the second may
begin with, and if it takes nothing, those that may come after it. -/
theorem bind (hfirst : Reads reader value words next)
    (hsecond : ∀ item, Reads (after (value item)) (value' item) words' next')
    (hnext : ∀ item kind, next' kind → next (((words' item).map Prod.fst).headD kind)) :
    Reads (reader >>= after) (fun items : ι × κ => value' items.1 items.2)
      (fun items => words items.1 ++ words' items.2) next' := by
  refine ⟨?_, ?_, ?_⟩
  · intro p q b hfinish h
    rcases bind_eq_ok_iff.1 h with ⟨a, p', hreader, hafter⟩
    rcases hfirst.sound hfinish hreader with ⟨item, front, hfront, hkept, hwords, rfl⟩
    rcases (hsecond item).sound (hkept ▸ hfinish) hafter with
      ⟨item', back, hback, hkept', hwords', rfl⟩
    refine ⟨(item, item'), front ++ back, ?_, hkept'.trans hkept, ?_, rfl⟩
    · rw [hfront, hback, List.append_assoc]
    · rw [List.map_append, hwords, hwords']
  · rintro ⟨item, item'⟩ p taken rest hfinish hrest hwords hadmits
    rcases List.map_eq_append_iff.1 hwords with ⟨front, back, rfl, hfront, hback⟩
    -- The word behind the first part is the first of the second part, or the one behind both.
    have hbehind : next ((back ++ rest).headD p.finish).kind := by
      have hkind := hnext item' _ hadmits
      rw [← hback] at hkind
      cases back with
      | nil => simpa using hkind
      | cons t more => simpa [Token.word] using hkind
    rcases hfirst.complete item hfinish (by rw [hrest, List.append_assoc]) hfront hbehind with
      ⟨p', hreader, hrest', hkept⟩
    rcases (hsecond item).complete item' (hkept ▸ hfinish) hrest' hback (by rwa [hkept]) with
      ⟨q, hafter, hrestq, hkeptq⟩
    exact ⟨q, bind_eq_ok_iff.2 ⟨_, p', hreader, hafter⟩, hrestq, hkeptq.trans hkept⟩
  · intro p q halike
    refine (hfirst.agree halike).bind ?_
    -- The second reader is only known at the values of items, and the result is one.
    intro a p' q' hreader _ halike'
    rcases hfirst.sound halike.finish_left hreader with ⟨item, _, _, _, _, rfl⟩
    exact (hsecond item).agree halike'

/-- Other items with the same values and words. -/
theorem congr {other : κ → α} (h : Reads reader value words next)
    (hto : ∀ item, ∃ item', other item' = value item ∧ words' item' = words item)
    (hfrom : ∀ item', ∃ item, value item = other item' ∧ words item = words' item') :
    Reads reader other words' next := by
  refine ⟨?_, ?_, h.agree⟩
  · intro p p' a hfinish hreader
    rcases h.sound hfinish hreader with ⟨item, taken, hrest, hkept, hwords, rfl⟩
    rcases hto item with ⟨item', hvalue, hwords'⟩
    exact ⟨item', taken, hrest, hkept, hwords.trans hwords'.symm, hvalue.symm⟩
  · intro item' p taken rest hfinish hrest hwords hadmits
    rcases hfrom item' with ⟨item, hvalue, hwords'⟩
    rw [← hvalue]
    exact h.complete item hfinish hrest (hwords.trans hwords'.symm) hadmits

/-- A reader whose result is taken further. -/
theorem map (f : α → β) (h : Reads reader value words next) :
    Reads (do return f (← reader)) (fun item => f (value item)) words next := by
  have hpure : ∀ item, Reads (Pure.pure (f (value item)) : Reader β)
      (fun _ : Unit => f (value item)) (fun _ => []) next :=
    fun item => .pure (f (value item))
  refine Reads.congr (h.bind hpure fun _ _ hkind => hkind) ?_ ?_
  · exact fun items => ⟨items.1, rfl, (List.append_nil _).symm⟩
  · exact fun item => ⟨(item, ()), rfl, List.append_nil _⟩

/-! ## Choices -/

/-- A reader that always fails reads no item. -/
theorem fail (hnone : ι → False) : Reads Parse.fail value words next := by
  refine ⟨?_, fun item => (hnone item).elim, ?_⟩
  · intro p p' a _ h
    cases h
  · intro p q halike
    change Agree (.error p.failure p) (.error q.failure q)
    rw [halike.failure]
    exact .error _ p q

/-- The kind of the word at hand tells which items can be read. -/
theorem choose {readers : TokenKind → Reader α} {start : ι → TokenKind}
    (h : ∀ kind, Reads (readers kind) (fun item : {item // start item = kind} => value item)
      (fun item => words item) next)
    (hstart : ∀ item, ∃ text more, words item = (start item, text) :: more) :
    Reads (do readers (← get).word.kind) value words next := by
  refine ⟨?_, ?_, ?_⟩
  · intro p p' a hfinish hreader
    rcases (h p.word.kind).sound hfinish hreader with ⟨⟨item, _⟩, hitem⟩
    exact ⟨item, hitem⟩
  · intro item p taken rest hfinish hrest hwords hadmits
    -- The word at hand is the first of the item, so its kind leads to the right reader.
    have hkind : start item = p.word.kind := by
      rcases hstart item with ⟨text, more, hitem⟩
      rcases List.map_eq_cons_iff.1 (hwords.trans hitem) with ⟨t, _, rfl, ht, _⟩
      have hword : p.word = t := by simp [Progress.word, hrest]
      exact hword ▸ (congrArg Prod.fst ht).symm
    exact (h p.word.kind).complete ⟨item, hkind⟩ hfinish hrest hwords hadmits
  · intro p q halike
    change Agree (readers p.word.kind p) (readers q.word.kind q)
    rw [← halike.word]
    exact (h p.word.kind).agree halike

end Reads

/-! ## Words and expansions -/

theorem expect_eq (kind : TokenKind) (p : Progress) :
    expect kind p =
      if p.word.kind = kind then .ok (Node.word kind p.word.value) p.advance
      else .error p.failure p := by
  by_cases hkind : p.word.kind = kind
  · rw [if_pos hkind]
    unfold expect
    change (if p.word.kind = kind then _ else _ : Reader Node) p = _
    rw [if_pos hkind]
    rfl
  · rw [if_neg hkind]
    unfold expect
    change (if p.word.kind = kind then _ else _ : Reader Node) p = _
    rw [if_neg hkind]
    rfl

/-- A word of any kind but the end is read from the tokens themselves. -/
theorem reads_expect {kind : TokenKind} {next : TokenKind → Prop} (hkind : kind ≠ .endOfInput) :
    Reads (expect kind) (Node.word kind) (fun text => [(kind, text)]) next := by
  refine ⟨?_, ?_, ?_⟩
  · intro p p' n hfinish h
    rw [expect_eq] at h
    by_cases hword : p.word.kind = kind
    · rw [if_pos hword] at h
      cases h
      cases hrest : p.rest with
      | nil =>
          -- With no token left the word at hand is the end of the input.
          have hend : p.word = p.finish := by simp [Progress.word, hrest]
          exact absurd (hend ▸ hword).symm (hfinish ▸ hkind)
      | cons t rest =>
          have hhead : p.word = t := by simp [Progress.word, hrest]
          rw [hhead] at hword ⊢
          refine ⟨t.value, [t], ?_, rfl, ?_, rfl⟩
          · simp [Progress.advance, hrest]
          · simp [Token.word, hword]
    · rw [if_neg hword] at h
      cases h
  · intro text p taken rest _ hrest hwords _
    rcases List.map_eq_singleton_iff.1 hwords with ⟨t, rfl, ht⟩
    have hhead : p.word = t := by simp [Progress.word, hrest]
    have hparts : t.kind = kind ∧ t.value = text := by simpa [Token.word] using ht
    refine ⟨p.advance, ?_, ?_, rfl⟩
    · rw [expect_eq, hhead, if_pos hparts.1, hparts.2]
    · simp [Progress.advance, hrest]
  · intro p q halike
    rw [expect_eq, expect_eq, ← halike.word, ← halike.failure]
    by_cases hword : p.word.kind = kind
    · rw [if_pos hword, if_pos hword]
      exact .ok _ (halike.advance (hword ▸ hkind))
    · rw [if_neg hword, if_neg hword]
      exact .error _ p q

/-- A word and what comes after it. Any kind of word may come after a word. -/
theorem reads_expect_bind {kind : TokenKind} (hkind : kind ≠ .endOfInput) {after : Node → Reader β}
    {value : String → ι → β} {words : ι → List Word} {next : TokenKind → Prop}
    (h : ∀ text, Reads (after (Node.word kind text)) (value text) words next) :
    Reads (expect kind >>= after) (fun items : String × ι => value items.1 items.2)
      (fun items => (kind, items.1) :: words items.2) next := by
  have hword : Reads (expect kind) (Node.word kind) (fun text => [(kind, text)]) fun _ => True :=
    reads_expect hkind
  exact hword.bind h fun _ _ _ => trivial

theorem reads_modify (f : Progress → Progress) (hrest : ∀ p, (f p).rest = p.rest)
    (hfinish : ∀ p, (f p).finish = p.finish)
    (halike : ∀ {p q : Progress}, Alike p q → Alike (f p) (f q)) {next : TokenKind → Prop} :
    Reads (modify f) (fun _ : Unit => ()) (fun _ => []) next := by
  refine ⟨?_, ?_, fun h => .ok () (halike h)⟩
  · intro p p' _ _ h
    cases h
    exact ⟨(), [], (hrest p).symm, hfinish p, rfl, rfl⟩
  · intro _ p taken rest _ hsplit hwords _
    obtain rfl := List.map_eq_nil_iff.1 hwords
    exact ⟨f p, rfl, (hrest p).trans hsplit, hfinish p⟩

/-- The procedure of a rule reads what its body reads. -/
theorem reads_expand (rule : Rule) {body : Reader (List Node)} {children : ι → List Node}
    {words : ι → List Word} {next : TokenKind → Prop} (h : Reads body children words next) :
    Reads (expand rule body) (fun item => Node.expansion rule (children item)) words next := by
  have henter : Reads (modify (Progress.enter rule)) (fun _ : Unit => ()) (fun _ => [])
      fun _ => True :=
    reads_modify (Progress.enter rule) (fun _ => rfl) (fun _ => rfl) fun h => h.enter rule
  have hleave : Reads (modify Progress.leave) (fun _ : Unit => ()) (fun _ => []) next :=
    reads_modify Progress.leave (fun _ => rfl) (fun _ => rfl) Alike.leave
  have hlast : ∀ item, Reads
      (do modify Progress.leave; return Node.expansion rule (children item))
      (fun _ : Unit => Node.expansion rule (children item)) (fun _ => []) next :=
    fun item => hleave.map fun _ => Node.expansion rule (children item)
  -- Nothing is taken after the body, so what comes behind it comes behind the whole expansion.
  have hbody : Reads
      (do let children ← body; modify Progress.leave; return Node.expansion rule children)
      (fun item => Node.expansion rule (children item)) words next := by
    refine Reads.congr (h.bind hlast fun _ _ => id) ?_ ?_
    · exact fun items => ⟨items.1, rfl, (List.append_nil _).symm⟩
    · exact fun item => ⟨(item, ()), rfl, List.append_nil _⟩
  refine Reads.congr (henter.bind (fun _ => hbody) fun _ _ _ => trivial) ?_ ?_
  · exact fun items => ⟨items.2, rfl, rfl⟩
  · exact fun item => ⟨((), item), rfl, rfl⟩

/-! ## Tails -/

theorem rounds_succ (rule : Rule) (body : Reader (List Node)) (limit : Nat)
    (done : List (List Node)) (p : Progress) :
    rounds rule body (limit + 1) done p =
      if rule.emptyBefore.contains p.word.kind then .ok done (p.enter rule)
      else (body >>= fun children => rounds rule body limit (children :: done)) (p.enter rule) := by
  cases hend : rule.emptyBefore.contains p.word.kind with
  | true =>
      change (if rule.emptyBefore.contains p.word.kind then _ else _ : Reader _) (p.enter rule) = _
      rw [hend]
      rfl
  | false =>
      change (if rule.emptyBefore.contains p.word.kind then _ else _ : Reader _) (p.enter rule) = _
      rw [hend]
      rfl

section Tails

variable {rule : Rule} {body : Reader (List Node)} {children : ι → List Node}
  {words : ι → List Word} {next : TokenKind → Prop} {start : TokenKind}

/-- A round takes a token at least. -/
theorem rest_length_lt (hbody : Reads body children words next)
    (hstart : ∀ item, ∃ text more, words item = (start, text) :: more) {round : List Node}
    (hfinish : p.finish.kind = .endOfInput) (h : body (p.enter rule) = .ok round q) :
    q.rest.length < p.rest.length := by
  have hfinish' : (p.enter rule).finish.kind = .endOfInput := hfinish
  rcases hbody.sound hfinish' h with ⟨item, taken, hrest, _, hwords, _⟩
  rcases hstart item with ⟨text, more, hitem⟩
  have hlength := congrArg List.length (hwords.trans hitem)
  have htotal : p.rest.length = (taken ++ q.rest).length := congrArg List.length hrest
  simp only [List.length_map, List.length_cons] at hlength
  simp only [List.length_append] at htotal
  omega

/-- Rounds only end at a word before which the rule may end, as long as the limit leaves one round
for each token and one more. -/
theorem rounds_sound (hbody : Reads body children words next)
    (hstart : ∀ item, ∃ text more, words item = (start, text) :: more) :
    ∀ (limit : Nat) (done : List (List Node)) {p p' : Progress} {result : List (List Node)},
      p.finish.kind = .endOfInput → p.rest.length < limit →
      rounds rule body limit done p = .ok result p' →
      ∃ (items : List ι) (taken : List Token),
        result = (items.map children).reverse ++ done ∧ p.rest = taken ++ p'.rest ∧
          p'.finish = p.finish ∧ taken.map Token.word = items.flatMap words := by
  -- By induction on the limit. The tokens that are left decrease at least as fast.
  intro limit
  induction limit with
  | zero =>
      intro done p p' result _ hlimit _
      omega
  | succ limit ih =>
      intro done p p' result hfinish hlimit h
      rw [rounds_succ] at h
      by_cases hend : rule.emptyBefore.contains p.word.kind = true
      · rw [if_pos hend] at h
        cases h
        exact ⟨[], [], rfl, rfl, rfl, rfl⟩
      · rw [if_neg hend] at h
        rcases bind_eq_ok_iff.1 h with ⟨round, q, hround, hmore⟩
        have hshorter := rest_length_lt hbody hstart hfinish hround
        have hfinish' : (p.enter rule).finish.kind = .endOfInput := hfinish
        rcases hbody.sound hfinish' hround with ⟨item, front, hfront, hkept, hitem, rfl⟩
        have hrest : p.rest = front ++ q.rest := hfront
        rcases ih (children item :: done) (hkept ▸ hfinish) (by omega) hmore with
          ⟨items, taken, rfl, htaken, hkept', hitems⟩
        refine ⟨item :: items, front ++ taken, by simp, ?_, hkept'.trans hkept, ?_⟩
        · rw [hrest, htaken, List.append_assoc]
        · rw [List.map_append, hitem, hitems, List.flatMap_cons]

theorem rounds_complete (hbody : Reads body children words next)
    (hstart : ∀ item, ∃ text more, words item = (start, text) :: more)
    (hcontinues : start ∉ rule.emptyBefore) (hnext : next start)
    (hnextEnd : ∀ kind ∈ rule.emptyBefore, next kind) :
    ∀ (items : List ι) (limit : Nat) (done : List (List Node)) {p : Progress}
      {taken rest : List Token}, p.finish.kind = .endOfInput → p.rest.length < limit →
      p.rest = taken ++ rest → taken.map Token.word = items.flatMap words →
      (rest.headD p.finish).kind ∈ rule.emptyBefore →
      ∃ p', rounds rule body limit done p = .ok ((items.map children).reverse ++ done) p' ∧
        p'.rest = rest ∧ p'.finish = p.finish := by
  -- By induction on the items that are still to be read.
  intro items
  induction items with
  | nil =>
      intro limit done p taken rest hfinish hlimit hrest hwords hend
      rcases Nat.exists_eq_add_one_of_ne_zero (Nat.ne_zero_of_lt hlimit) with ⟨limit, rfl⟩
      obtain rfl := List.map_eq_nil_iff.1 hwords
      have hword : p.word = rest.headD p.finish := by simp [Progress.word, hrest]
      have hcontains : rule.emptyBefore.contains p.word.kind = true := by simpa [hword] using hend
      refine ⟨p.enter rule, ?_, hrest, rfl⟩
      rw [rounds_succ, if_pos hcontains]
      rfl
  | cons item items ih =>
      intro limit done p taken rest hfinish hlimit hrest hwords hend
      rcases Nat.exists_eq_add_one_of_ne_zero (Nat.ne_zero_of_lt hlimit) with ⟨limit, rfl⟩
      rw [List.flatMap_cons] at hwords
      rcases List.map_eq_append_iff.1 hwords with ⟨front, back, rfl, hfront, hback⟩
      rcases hstart item with ⟨text, more, hitem⟩
      rcases List.map_eq_cons_iff.1 (hfront.trans hitem) with ⟨t, front, rfl, ht, hmore⟩
      have hkind : t.kind = start := congrArg Prod.fst ht
      have hword : p.word = t := by simp [Progress.word, hrest]
      have hcontains : rule.emptyBefore.contains p.word.kind = false := by
        simpa [hword, hkind] using hcontinues
      -- Behind the round stands the first word of another round, or one before which to end.
      have hbehind : next ((back ++ rest).headD p.finish).kind := by
        cases items with
        | nil =>
            obtain rfl : back = [] := by simpa using hback
            exact hnextEnd _ hend
        | cons item' items =>
            rcases hstart item' with ⟨text', more', hitem'⟩
            rw [List.flatMap_cons, hitem'] at hback
            rcases List.map_eq_cons_iff.1 hback with ⟨t', back', rfl, ht', _⟩
            have hkind' : t'.kind = start := congrArg Prod.fst ht'
            simpa [hkind'] using hnext
      have hentered : (p.enter rule).rest = (t :: front) ++ (back ++ rest) := by
        simpa [Progress.enter] using hrest
      have hfinish' : (p.enter rule).finish.kind = .endOfInput := hfinish
      rcases hbody.complete item hfinish' hentered hfront hbehind with ⟨q, hround, hrestq, hkept⟩
      have hshorter := rest_length_lt hbody hstart hfinish hround
      have hend' : (rest.headD q.finish).kind ∈ rule.emptyBefore := by rwa [hkept]
      rcases ih limit (children item :: done) (hkept ▸ hfinish) (by omega) hrestq hback hend' with
        ⟨p', hrounds, hrest', hkept'⟩
      refine ⟨p', ?_, hrest', hkept'.trans hkept⟩
      rw [rounds_succ, hcontains]
      simp only [Bool.false_eq_true, if_false]
      rw [bind_eq_ok_iff]
      exact ⟨children item, q, hround, by simpa using hrounds⟩

theorem rounds_agree (hbody : Reads body children words next)
    (hstart : ∀ item, ∃ text more, words item = (start, text) :: more) :
    ∀ (limit limit' : Nat) (done : List (List Node)) {p q : Progress}, Alike p q →
      p.rest.length < limit → q.rest.length < limit' →
      Agree (rounds rule body limit done p) (rounds rule body limit' done q) := by
  -- The limits may differ, since the tokens behind the end of the input count for them.
  intro limit
  induction limit with
  | zero =>
      intro limit' done p q _ hlimit _
      omega
  | succ limit ih =>
      intro limit' done p q halike hlimit hlimit'
      rcases Nat.exists_eq_add_one_of_ne_zero (Nat.ne_zero_of_lt hlimit') with ⟨limit', rfl⟩
      rw [rounds_succ, rounds_succ, ← halike.word]
      by_cases hend : rule.emptyBefore.contains p.word.kind = true
      · rw [if_pos hend, if_pos hend]
        exact .ok done (halike.enter rule)
      · rw [if_neg hend, if_neg hend]
        refine (hbody.agree (halike.enter rule)).bind ?_
        intro round p' q' hround hround' halike'
        have hshorter := rest_length_lt hbody hstart halike.finish_left hround
        have hshorter' := rest_length_lt hbody hstart halike.finish_right hround'
        exact ih limit' (round :: done) halike' (by omega) (by omega)

theorem nestRounds_reverse (rule : Rule) (rounds : List (List Node)) :
    nestRounds rule rounds.reverse = Node.nest rule rounds := by
  rw [nestRounds, List.foldl_reverse]
  rfl

theorem expandTail_eq (rule : Rule) (body : Reader (List Node)) (p : Progress) :
    expandTail rule body p =
      (rounds rule body (p.rest.length + 1) [] >>= fun done => do
        modify fun q => { q with opened := p.opened }
        return nestRounds rule done) p :=
  rfl

theorem expandTail_eq_ok_iff {n : Node} {p q : Progress} :
    expandTail rule body p = .ok n q ↔
      ∃ done p', rounds rule body (p.rest.length + 1) [] p = .ok done p' ∧
        n = nestRounds rule done ∧ q = { p' with opened := p.opened } := by
  rw [expandTail_eq, bind_eq_ok_iff]
  constructor
  · rintro ⟨done, p', hrounds, hlast⟩
    cases hlast
    exact ⟨done, p', hrounds, rfl, rfl⟩
  · rintro ⟨done, p', hrounds, rfl, rfl⟩
    exact ⟨done, p', hrounds, rfl⟩

/-- The procedure of a tail reads any number of rounds, if each round is known by its first word
and the word behind the tail is one before which it may end. -/
theorem reads_expandTail (hbody : Reads body children words next)
    (hstart : ∀ item, ∃ text more, words item = (start, text) :: more)
    (hcontinues : start ∉ rule.emptyBefore) (hnext : next start)
    (hnextEnd : ∀ kind ∈ rule.emptyBefore, next kind) :
    Reads (expandTail rule body) (fun items : List ι => Node.nest rule (items.map children))
      (fun items => items.flatMap words) (· ∈ rule.emptyBefore) := by
  refine ⟨?_, ?_, ?_⟩
  · intro p p' n hfinish h
    rcases expandTail_eq_ok_iff.1 h with ⟨done, q, hrounds, rfl, rfl⟩
    rcases rounds_sound hbody hstart (p.rest.length + 1) [] hfinish (Nat.lt_succ_self _) hrounds
        with ⟨items, taken, rfl, hrest, hkept, hwords⟩
    exact ⟨items, taken, hrest, hkept, hwords, by simp [nestRounds_reverse]⟩
  · intro items p taken rest hfinish hrest hwords hend
    rcases rounds_complete hbody hstart hcontinues hnext hnextEnd items (p.rest.length + 1) []
        hfinish (Nat.lt_succ_self _) hrest hwords hend with ⟨p', hrounds, hrest', hkept⟩
    refine ⟨_, expandTail_eq_ok_iff.2 ⟨_, p', hrounds, ?_, rfl⟩, hrest', hkept⟩
    simp [nestRounds_reverse]
  · intro p q halike
    rw [expandTail_eq, expandTail_eq, ← halike.opened]
    refine (rounds_agree hbody hstart _ _ [] halike (Nat.lt_succ_self _)
      (Nat.lt_succ_self _)).bind ?_
    intro done p' q' _ _ halike'
    exact .ok _ ⟨halike'.finish_left, halike'.finish_right, halike'.visible, rfl⟩

end Tails

end Parse
end BnfGrammar
