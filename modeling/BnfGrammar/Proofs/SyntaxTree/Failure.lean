import BnfGrammar.Proofs.SyntaxTree.Parse

/-!
# Failures at the first impossible word

A parse that fails names the first word that cannot stand where it does: the words before it are the
beginning of some sentence, and with it they are the beginning of none.

A reader has seen the kinds of the tokens that it has taken and the kind of the word at hand. A
sentence continues what was seen (`Parse.Continues`) if it begins so, with an admitted kind behind
it. For a reader both parts are said by `Parse.Decides`, over the language of kinds that it reads:

* where it fails, the kinds taken are the beginning of a sentence, and no sentence continues what
  was seen;
* where it succeeds, only the sentence that was taken continues what was seen, so that the reader
  has not stopped too early.

The second part is what makes sequences work: whatever sentence of a product is thought to stand at
the front, its first factor is what the first reader has taken (`Completes.continues_behind`).
-/

namespace BnfGrammar
namespace Parse

open Outline

variable {α β ι : Type} {p q r : Progress} {taken taken' : List Token} {l m : Language TokenKind}
  {next next' : TokenKind → Prop}

/-! ## Taken tokens -/

/-- The kinds of the tokens that are still to be read and of the end behind them. -/
def Progress.kinds (p : Progress) : List TokenKind :=
  p.rest.map Token.kind ++ [p.finish.kind]

theorem Progress.word_prefix_kinds (p : Progress) : [p.word.kind] <+: p.kinds := by
  cases hrest : p.rest with
  | nil => simp [kinds, word, hrest]
  | cons t rest => simp [kinds, word, hrest]

/-- A list of kinds and one kind behind it stand at the front. -/
theorem Progress.exists_front {kinds : List TokenKind} {kind : TokenKind}
    (h : kinds ++ [kind] <+: p.kinds) :
    ∃ front rest, p.rest = front ++ rest ∧ front.map Token.kind = kinds ∧
      (rest.headD p.finish).kind = kind := by
  rw [Progress.kinds] at h
  generalize p.rest = tokens at h ⊢
  induction kinds generalizing tokens with
  | nil =>
      refine ⟨[], tokens, rfl, rfl, ?_⟩
      cases tokens with
      | nil => simpa [eq_comm] using h
      | cons t tokens => simpa [eq_comm] using h
  | cons first kinds ih =>
      cases tokens with
      | nil => simp at h
      | cons t tokens =>
          simp only [List.cons_append, List.map_cons, List.cons_prefix_cons] at h
          rcases ih tokens h.2 with ⟨front, rest, rfl, rfl, hkind⟩
          exact ⟨t :: front, rest, rfl, by simp [h.1], hkind⟩

/-- Some tokens lie between two progresses. -/
structure Takes (p : Progress) (taken : List Token) (q : Progress) : Prop where
  rest : p.rest = taken ++ q.rest
  finish : q.finish = p.finish

namespace Takes

theorem refl (p : Progress) : Takes p [] p :=
  ⟨rfl, rfl⟩

theorem trans (hpq : Takes p taken q) (hqr : Takes q taken' r) : Takes p (taken ++ taken') r where
  rest := by rw [hpq.rest, hqr.rest, List.append_assoc]
  finish := hqr.finish.trans hpq.finish

theorem trans_nil (h : Takes p taken q) (hrest : r.rest = q.rest) (hfinish : r.finish = q.finish) :
    Takes p taken r where
  rest := hrest ▸ h.rest
  finish := hfinish.trans h.finish

theorem unique (h : Takes p taken q) (h' : Takes p taken' q) : taken = taken' :=
  List.append_cancel_right (h.rest.symm.trans h'.rest)

theorem prefix_kinds (h : Takes p taken q) :
    taken.map Token.kind ++ [q.word.kind] <+: p.kinds := by
  have hkinds : p.kinds = taken.map Token.kind ++ q.kinds := by
    simp [Progress.kinds, h.rest, h.finish]
  rw [hkinds, List.prefix_append_right_inj]
  exact q.word_prefix_kinds

/-- The first kind that is seen is that of the word at hand. -/
theorem word_prefix (h : Takes p taken q) :
    [p.word.kind] <+: taken.map Token.kind ++ [q.word.kind] := by
  cases taken with
  | nil =>
      have hword : p.word = q.word := by
        simp [Progress.word, h.rest, h.finish]
      simp [hword]
  | cons t taken =>
      have hword : p.word = t := by
        simp [Progress.word, h.rest]
      simp [hword]

end Takes

/-! ## Readers and languages -/

theorem bind_eq_error_iff {reader : Reader α} {after : α → Reader β} {e : ParseError} :
    (reader >>= after) p = .error e q ↔
      reader p = .error e q ∨ ∃ a p', reader p = .ok a p' ∧ after a p' = .error e q := by
  change EStateM.bind reader after p = .error e q ↔ _
  unfold EStateM.bind
  cases reader p with
  | ok a p' => simp
  | error e' p' => simp

/-- Wherever a sentence of the language stands at the front with an admitted kind behind it, the
reader takes that sentence. -/
def Completes (reader : Reader α) (l : Language TokenKind) (next : TokenKind → Prop) : Prop :=
  ∀ {p : Progress} {s : List TokenKind} {kind : TokenKind}, p.finish.kind = .endOfInput → s ∈ l →
    next kind → s ++ [kind] <+: p.kinds →
    ∃ a q taken, reader p = .ok a q ∧ Takes p taken q ∧ taken.map Token.kind = s

theorem Reads.completes {reader : Reader α} {value : ι → α} {words : ι → List Word}
    (h : Reads reader value words next) (hwords : Sentence.Describes l words) :
    Completes reader l next := by
  intro p s kind hfinish hs hnext hfront
  rcases Progress.exists_front hfront with ⟨taken, rest, hrest, rfl, hkind⟩
  -- The texts of the tokens that stand there make an item.
  have hkinds : (taken.map Token.word).map Prod.fst = taken.map Token.kind := by
    simp [Token.word]
  rcases (hwords (taken.map Token.word)).1 (hkinds.symm ▸ hs) with ⟨item, hitem⟩
  rcases h.complete item hfinish hrest hitem.symm (hkind.symm ▸ hnext) with
    ⟨q, hreader, hrestq, hkept⟩
  exact ⟨value item, q, taken, hreader, ⟨hrestq.symm ▸ hrest, hkept⟩, rfl⟩

/-- A sentence of the language that, with an admitted kind behind it, begins with the kinds of the
tokens that were taken and the kind of the word at hand. -/
structure Continues (l : Language TokenKind) (next : TokenKind → Prop) (taken : List Token)
    (q : Progress) (s : List TokenKind) : Prop where
  mem : s ∈ l
  front : ∃ kind, next kind ∧ taken.map Token.kind ++ [q.word.kind] <+: s ++ [kind]

theorem Continues.headD_eq {s : List TokenKind} (hs : Continues l next [] p s) :
    ∃ kind, next kind ∧ s.headD kind = p.word.kind := by
  rcases hs.front with ⟨kind, hkind, hfront⟩
  refine ⟨kind, hkind, ?_⟩
  cases s with
  | nil => simpa [eq_comm] using hfront
  | cons first s => simpa [eq_comm] using hfront

/-- At a progress, a reader of a language stops neither too early nor too late. -/
structure Decides (reader : Reader α) (l : Language TokenKind) (next : TokenKind → Prop)
    (p : Progress) : Prop where
  accepted : ∀ {a : α} {q : Progress}, reader p = .ok a q →
    ∃ taken, Takes p taken q ∧ taken.map Token.kind ∈ l ∧
      ∀ s, Continues l next taken q s → s = taken.map Token.kind
  refused : ∀ {e : ParseError} {q : Progress}, reader p = .error e q →
    e = q.failure ∧ ∃ taken, Takes p taken q ∧ (∃ s ∈ l, taken.map Token.kind <+: s) ∧
      ∀ s, ¬ Continues l next taken q s

/-! ## Sequences -/

section Sequences

variable {reader : Reader α} {s : List TokenKind}

/-- Where a sentence of a product continues what a reader has seen, its first factor does, or else
the reader takes that factor. -/
theorem Completes.continues_or_takes (h : Completes reader l next)
    (hfinish : p.finish.kind = .endOfInput)
    (hnext : ∀ t ∈ m, ∀ kind, next' kind → next (t.headD kind)) (htakes : Takes p taken q)
    (hs : Continues (l * m) next' taken q s) :
    ∃ first t, s = first ++ t ∧ t ∈ m ∧ (Continues l next taken q first ∨
      ∃ a q' taken', reader p = .ok a q' ∧ Takes p taken' q' ∧ taken'.map Token.kind = first) := by
  rcases hs with ⟨hmem, kind, hkind, hfront⟩
  rcases Language.mem_mul.1 hmem with ⟨first, hfirst, t, ht, rfl⟩
  refine ⟨first, t, rfl, ht, ?_⟩
  have hfactor : first ++ [t.headD kind] <+: first ++ t ++ [kind] := by
    rw [List.append_assoc, List.prefix_append_right_inj]
    cases t with
    | nil => exact List.prefix_rfl
    | cons head t => exact ⟨t ++ [kind], rfl⟩
  rcases List.prefix_or_prefix_of_prefix hfront hfactor with hshort | hlong
  · exact Or.inl ⟨hfirst, _, hnext t ht kind hkind, hshort⟩
  · exact Or.inr (h hfinish hfirst (hnext t ht kind hkind) (hlong.trans htakes.prefix_kinds))

/-- What is seen behind a part of the tokens is all that is seen but for that part. -/
theorem Continues.shorten {more : List Token} {r : Progress} (hmore : Takes q more r)
    (hs : Continues l next (taken ++ more) r s) : Continues l next taken q s := by
  rcases hs with ⟨hmem, kind, hkind, hfront⟩
  refine ⟨hmem, kind, hkind, List.IsPrefix.trans ?_ hfront⟩
  rw [List.map_append, List.append_assoc, List.prefix_append_right_inj]
  exact hmore.word_prefix

/-- What the first reader has taken is the first factor of whatever continues it. -/
theorem Completes.continues_behind (h : Completes reader l next)
    (hfinish : p.finish.kind = .endOfInput)
    (hnext : ∀ t ∈ m, ∀ kind, next' kind → next (t.headD kind)) {a : α} {more : List Token}
    (hreader : reader p = .ok a q) (htakes : Takes p taken q)
    (hexact : ∀ first, Continues l next taken q first → first = taken.map Token.kind)
    (hmore : Takes q more r) (hs : Continues (l * m) next' (taken ++ more) r s) :
    ∃ t, s = taken.map Token.kind ++ t ∧ Continues m next' more r t := by
  rcases h.continues_or_takes hfinish hnext htakes (hs.shorten hmore) with
    ⟨first, t, rfl, ht, hfirst⟩
  have hsame : first = taken.map Token.kind := by
    rcases hfirst with hcontinues | ⟨a', q', taken', hreader', htakes', htaken'⟩
    · exact hexact first hcontinues
    · cases hreader.symm.trans hreader'
      rw [← htaken', htakes.unique htakes']
  rcases hs.front with ⟨kind, hkind, hfront⟩
  rw [hsame, List.map_append, List.append_assoc, List.append_assoc,
    List.prefix_append_right_inj] at hfront
  exact ⟨t, by rw [hsame], ht, kind, hkind, hfront⟩

end Sequences

namespace Decides

/-- One reader after another. The first also has to read its language to the end wherever it can. -/
theorem bind {reader : Reader α} {after : α → Reader β} (hfinish : p.finish.kind = .endOfInput)
    (hcompletes : Completes reader l next) (hfirst : Decides reader l next p)
    (hsecond : ∀ {a q}, reader p = .ok a q → q.finish = p.finish → Decides (after a) m next' q)
    (hm : ∃ s, s ∈ m) (hnext : ∀ s ∈ m, ∀ kind, next' kind → next (s.headD kind)) :
    Decides (reader >>= after) (l * m) next' p := by
  refine ⟨?_, ?_⟩
  · intro b r h
    rcases bind_eq_ok_iff.1 h with ⟨a, q, hreader, hafter⟩
    rcases hfirst.accepted hreader with ⟨taken, htakes, htaken, hexact⟩
    rcases (hsecond hreader htakes.finish).accepted hafter with ⟨more, hmore, hin, hexact'⟩
    refine ⟨taken ++ more, htakes.trans hmore, ?_, ?_⟩
    · rw [List.map_append]
      exact Language.append_mem_mul htaken hin
    · intro s hs
      rcases hcompletes.continues_behind hfinish hnext hreader htakes hexact hmore hs with
        ⟨t, rfl, ht⟩
      rw [hexact' t ht, List.map_append]
  · intro e r h
    rcases bind_eq_error_iff.1 h with hreader | ⟨a, q, hreader, hafter⟩
    · -- No first factor continues what was seen, and none that can be read whole was refused.
      rcases hfirst.refused hreader with ⟨hfailure, taken, htakes, ⟨s, hs, hbegins⟩, hnone⟩
      rcases hm with ⟨t, ht⟩
      refine ⟨hfailure, taken, htakes, ⟨s ++ t, Language.append_mem_mul hs ht, ?_⟩, ?_⟩
      · exact hbegins.trans (List.prefix_append s t)
      · intro u hu
        rcases hcompletes.continues_or_takes hfinish hnext htakes hu with
          ⟨first, _, _, _, hcontinues | ⟨a, q, _, hreader', _⟩⟩
        · exact hnone first hcontinues
        · cases hreader.symm.trans hreader'
    · rcases hfirst.accepted hreader with ⟨taken, htakes, htaken, hexact⟩
      rcases (hsecond hreader htakes.finish).refused hafter with
        ⟨hfailure, more, hmore, ⟨t, ht, hbegins⟩, hnone⟩
      refine ⟨hfailure, taken ++ more, htakes.trans hmore,
        ⟨taken.map Token.kind ++ t, Language.append_mem_mul htaken ht, ?_⟩, ?_⟩
      · rwa [List.map_append, List.prefix_append_right_inj]
      · intro s hs
        rcases hcompletes.continues_behind hfinish hnext hreader htakes hexact hmore hs with
          ⟨t, _, ht⟩
        exact hnone t ht

/-- A reader behind which only the result and the open rules change. -/
theorem andThen {reader : Reader α} {after : α → Reader β} (h : Decides reader l next p)
    (hafter : ∀ a q, ∃ b r, after a q = .ok b r ∧ r.rest = q.rest ∧ r.finish = q.finish) :
    Decides (reader >>= after) l next p := by
  refine ⟨?_, ?_⟩
  · intro b r hboth
    rcases bind_eq_ok_iff.1 hboth with ⟨a, q, hreader, hlast⟩
    rcases hafter a q with ⟨b', r', hok, hrest, hfinish⟩
    cases hlast.symm.trans hok
    rcases h.accepted hreader with ⟨taken, htakes, htaken, hexact⟩
    -- Nothing was taken last, so what was seen is the same.
    have hword : r.word = q.word := by rw [Progress.word, Progress.word, hrest, hfinish]
    refine ⟨taken, htakes.trans_nil hrest hfinish, htaken, ?_⟩
    rintro s ⟨hmem, hfront⟩
    exact hexact s ⟨hmem, hword ▸ hfront⟩
  · intro e r hboth
    rcases bind_eq_error_iff.1 hboth with hreader | ⟨a, q, _, hlast⟩
    · exact h.refused hreader
    · rcases hafter a q with ⟨_, _, hok, _⟩
      cases hlast.symm.trans hok

/-- A reader whose result is taken further. -/
theorem map {reader : Reader α} (f : α → β) (h : Decides reader l next p) :
    Decides (do return f (← reader)) l next p :=
  h.andThen fun a q => ⟨f a, q, rfl, rfl, rfl⟩

/-- A reader that goes on as another does from a place with the same tokens. -/
theorem of_eq {reader reader' : Reader α} (h : Decides reader' l next q)
    (heq : reader p = reader' q) (hrest : q.rest = p.rest) (hkept : q.finish = p.finish) :
    Decides reader l next p := by
  refine ⟨?_, ?_⟩
  · intro a r hreader
    rcases h.accepted (heq.symm.trans hreader) with ⟨taken, htakes, haccepted⟩
    exact ⟨taken, ⟨hrest ▸ htakes.rest, hkept ▸ htakes.finish⟩, haccepted⟩
  · intro e r hreader
    rcases h.refused (heq.symm.trans hreader) with ⟨hfailure, taken, htakes, hrefused⟩
    exact ⟨hfailure, taken, ⟨hrest ▸ htakes.rest, hkept ▸ htakes.finish⟩, hrefused⟩

/-! ## Words and choices -/

/-- Where the word at hand already tells that only some of the sentences can stand there, a reader
of these is one of all. -/
theorem of_front {reader : Reader α} (h : Decides reader l next p) (hle : ∀ s ∈ l, s ∈ m)
    (hfront : ∀ s, Continues m next [] p s → s ∈ l) : Decides reader m next p := by
  have hcontinues : ∀ {taken q s}, Takes p taken q → Continues m next taken q s →
      Continues l next taken q s :=
    fun htakes hs => ⟨hfront _ (hs.shorten htakes), hs.front⟩
  refine ⟨?_, ?_⟩
  · intro a q hreader
    rcases h.accepted hreader with ⟨taken, htakes, htaken, hexact⟩
    exact ⟨taken, htakes, hle _ htaken, fun s hs => hexact s (hcontinues htakes hs)⟩
  · intro e q hreader
    rcases h.refused hreader with ⟨hfailure, taken, htakes, ⟨s, hs, hbegins⟩, hnone⟩
    exact ⟨hfailure, taken, htakes, ⟨s, hle s hs, hbegins⟩,
      fun s hs => hnone s (hcontinues htakes hs)⟩

/-- A reader may fail at once if no sentence begins with the word at hand. -/
theorem fail (hl : ∃ s, s ∈ l) (hnone : ∀ s, ¬ Continues l next [] p s) :
    Decides (Parse.fail : Reader α) l next p := by
  refine ⟨?_, ?_⟩
  · intro a q h
    cases h
  · intro e q h
    cases h
    rcases hl with ⟨s, hs⟩
    exact ⟨rfl, [], .refl p, ⟨s, hs, List.nil_prefix⟩, hnone⟩

/-- A reader may take nothing if no sentence but the empty one begins with the word at hand. -/
theorem stop {reader : Reader α} {a : α} (hreader : reader p = .ok a q) (hrest : q.rest = p.rest)
    (hkept : q.finish = p.finish) (hnil : [] ∈ l)
    (hempty : ∀ s, Continues l next [] q s → s = []) : Decides reader l next p := by
  refine ⟨?_, ?_⟩
  · intro b r h
    cases hreader.symm.trans h
    exact ⟨[], ⟨hrest.symm, hkept⟩, hnil, hempty⟩
  · intro e r h
    cases hreader.symm.trans h

theorem expect {kind : TokenKind} (hkind : kind ≠ .endOfInput)
    (hfinish : p.finish.kind = .endOfInput) :
    Decides (Parse.expect kind) (RegularExpression.char kind).matches' next p := by
  rw [RegularExpression.matches'_char]
  refine ⟨?_, ?_⟩
  · intro n q h
    have hword : Reads (Parse.expect kind) (Node.word kind) (fun text => [(kind, text)]) next :=
      reads_expect hkind
    rcases hword.sound hfinish h with ⟨text, taken, hrest, hkept, hwords, _⟩
    have hkinds : taken.map Token.kind = [kind] := by
      simpa [Token.word] using congrArg (List.map Prod.fst) hwords
    exact ⟨taken, ⟨hrest, hkept⟩, hkinds, fun s hs => hs.mem.trans hkinds.symm⟩
  · intro e q h
    rw [expect_eq] at h
    by_cases hword : p.word.kind = kind
    · rw [if_pos hword] at h
      cases h
    · rw [if_neg hword] at h
      cases h
      refine ⟨rfl, [], .refl p, ⟨[kind], rfl, List.nil_prefix⟩, ?_⟩
      rintro s ⟨rfl, _, _, hfront⟩
      exact hword (by simpa using hfront)

/-- A word and what comes after it. -/
theorem expect_bind {kind : TokenKind} {after : Node → Reader β} (hkind : kind ≠ .endOfInput)
    (hfinish : p.finish.kind = .endOfInput)
    (hafter : ∀ n q, q.finish.kind = .endOfInput → Decides (after n) m next q)
    (hm : ∃ s, s ∈ m) :
    Decides (Parse.expect kind >>= after) ((RegularExpression.char kind).matches' * m) next p := by
  have hword : Reads (Parse.expect kind) (Node.word kind) (fun text => [(kind, text)])
      fun _ => True :=
    reads_expect hkind
  refine bind hfinish (hword.completes (.char kind)) (expect hkind hfinish) ?_ hm
    fun _ _ _ _ => trivial
  intro n q _ hkept
  exact hafter n q (hkept ▸ hfinish)

/-! ## Expansions -/

/-- A rule reads the language of its body. -/
theorem expand (rule : Rule) {body : Reader (List Node)}
    (h : Decides body l next (p.enter rule)) : Decides (Parse.expand rule body) l next p := by
  have hrest : Decides
      (do let children ← body; modify Progress.leave; return Node.expansion rule children)
      l next (p.enter rule) :=
    h.andThen fun children q => ⟨Node.expansion rule children, q.leave, rfl, rfl, rfl⟩
  exact hrest.of_eq rfl rfl rfl

/-! ## Tails -/

section Tails

variable {rule : Rule} {body : Reader (List Node)} {children : ι → List Node}
  {words : ι → List Word} {start : TokenKind}

/-- Rounds decide their language, as long as the limit leaves one round for each token and one
more. -/
theorem rounds (hreads : Reads body children words next) (hwords : Sentence.Describes l words)
    (hstart : ∀ item, ∃ text more, words item = (start, text) :: more)
    (hcontinues : start ∉ rule.emptyBefore) (hnext : next start)
    (hnextEnd : ∀ kind ∈ rule.emptyBefore, next kind)
    (hbody : ∀ q : Progress, q.finish.kind = .endOfInput → Decides body l next q) :
    ∀ (limit : Nat) (done : List (List Node)) {p : Progress}, p.finish.kind = .endOfInput →
      p.rest.length < limit →
      Decides (Parse.rounds rule body limit done) (KStar.kstar l) (· ∈ rule.emptyBefore) p := by
  -- By induction on the limit. The tokens that are left decrease at least as fast.
  intro limit
  induction limit with
  | zero =>
      intro done p _ hlimit
      omega
  | succ limit ih =>
      intro done p hfinish hlimit
      by_cases hend : rule.emptyBefore.contains p.word.kind = true
      · have hrounds : Parse.rounds rule body (limit + 1) done p = .ok done (p.enter rule) := by
          rw [rounds_succ, if_pos hend]
        refine stop hrounds rfl rfl (Language.nil_mem_kstar l) ?_
        intro s hs
        rcases hwords.kstar_cases hstart hs.mem with rfl | ⟨_, more, rfl⟩
        · rfl
        · rcases hs.headD_eq with ⟨_, _, hword⟩
          have hword : start = p.word.kind := hword
          exact absurd (by simpa [hword] using hend) hcontinues
      · have hrounds : Parse.rounds rule body (limit + 1) done p =
            (body >>= fun round => Parse.rounds rule body limit (round :: done))
              (p.enter rule) := by
          rw [rounds_succ, if_neg hend]
        have hfinish' : (p.enter rule).finish.kind = .endOfInput := hfinish
        have hmore : Decides (body >>= fun round => Parse.rounds rule body limit (round :: done))
            (l * KStar.kstar l) (· ∈ rule.emptyBefore) (p.enter rule) := by
          refine bind hfinish' (hreads.completes hwords) (hbody _ hfinish') ?_
            ⟨[], Language.nil_mem_kstar l⟩ ?_
          · intro round q hround hkept
            have hshorter := rest_length_lt hreads hstart hfinish hround
            exact ih (round :: done) (hkept ▸ hfinish) (by omega)
          · intro s hs kind hkind
            rcases hwords.kstar_cases hstart hs with rfl | ⟨_, more, rfl⟩
            · exact hnextEnd kind hkind
            · exact hnext
        refine (hmore.of_front ?_ ?_).of_eq hrounds rfl rfl
        · intro s hs
          rw [← Language.one_add_self_mul_kstar_eq_kstar]
          exact Or.inr hs
        · intro s hs
          rcases hwords.kstar_cases hstart hs.mem with rfl | ⟨hin, _⟩
          · -- Without a round, the word at hand would be one before which the rule may end.
            rcases hs.headD_eq with ⟨kind, hkind, hword⟩
            have hword : kind = p.word.kind := hword
            exact absurd (by simpa [hword] using hkind) hend
          · exact hin

theorem expandTail (hreads : Reads body children words next) (hwords : Sentence.Describes l words)
    (hstart : ∀ item, ∃ text more, words item = (start, text) :: more)
    (hcontinues : start ∉ rule.emptyBefore) (hnext : next start)
    (hnextEnd : ∀ kind ∈ rule.emptyBefore, next kind)
    (hbody : ∀ q : Progress, q.finish.kind = .endOfInput → Decides body l next q)
    (hfinish : p.finish.kind = .endOfInput) :
    Decides (Parse.expandTail rule body) (KStar.kstar l) (· ∈ rule.emptyBefore) p := by
  have hrounds := rounds hreads hwords hstart hcontinues hnext hnextEnd hbody (p.rest.length + 1) []
    hfinish (Nat.lt_succ_self _)
  refine (hrounds.andThen ?_).of_eq (expandTail_eq rule body p) rfl rfl
  exact fun done q => ⟨nestRounds rule done, { q with opened := p.opened }, rfl, rfl, rfl⟩

end Tails
end Decides

/-! ## The procedures of the parser -/

open Sentence RegularExpression

theorem decides_symbolListTail (hfinish : p.finish.kind = .endOfInput) :
    Decides symbolListTail (KStar.kstar (char TokenKind.symbol).matches')
      (· ∈ Rule.symbolListTail.emptyBefore) p := by
  refine Decides.expandTail reads_otherName (.char .symbol) (fun name => ⟨name, [], rfl⟩)
    (by decide) trivial (fun _ _ => trivial) ?_ hfinish
  exact fun q hq => (Decides.expect (by decide) hq).map fun n => [n]

theorem decides_symbolList (hfinish : p.finish.kind = .endOfInput) :
    Decides symbolList (char TokenKind.symbol * (char TokenKind.symbol).star).matches'
      (· ∈ Rule.symbolListTail.emptyBefore) p := by
  refine Decides.expand .symbolList (Decides.expect_bind (by decide) hfinish ?_ ?_)
  · exact fun first q hq => (decides_symbolListTail hq).map fun others => [first, others]
  · exact ⟨[], Language.nil_mem_kstar _⟩

theorem decides_rightHandSide (hfinish : p.finish.kind = .endOfInput) :
    Decides rightHandSide side.matches' (· ∈ Rule.symbolListTail.emptyBefore) p := by
  have hfinish' : (p.enter .rightHandSide).finish.kind = .endOfInput := hfinish
  -- A sentence begins with one of two kinds, and the kind tells which side it is.
  have hside : ∀ s, Continues side.matches' (· ∈ Rule.symbolListTail.emptyBefore) []
      (p.enter .rightHandSide) s →
      (p.word.kind = .epsilon ∧ s ∈ (char TokenKind.epsilon).matches') ∨
        (p.word.kind = .symbol ∧
          s ∈ (char TokenKind.symbol * (char TokenKind.symbol).star).matches') := by
    intro s hs
    rcases hs.headD_eq with ⟨kind, _, hword⟩
    rcases hs.mem with hempty | hnames
    · obtain rfl : s = [.epsilon] := hempty
      exact Or.inl ⟨hword.symm, rfl⟩
    · rcases Language.mem_mul.1 hnames with ⟨_, rfl, rest, _, rfl⟩
      exact Or.inr ⟨hword.symm, hnames⟩
  have hcontent : Decides (content p.word.kind) side.matches'
      (· ∈ Rule.symbolListTail.emptyBefore) (p.enter .rightHandSide) := by
    cases hkind : p.word.kind with
    | epsilon =>
        have hempty : Decides (content .epsilon) (char TokenKind.epsilon).matches'
            (· ∈ Rule.symbolListTail.emptyBefore) (p.enter .rightHandSide) :=
          (Decides.expect (by decide) hfinish').map fun n => [n]
        refine hempty.of_front (fun s hs => Or.inl hs) ?_
        intro s hs
        rcases hside s hs with ⟨_, hin⟩ | ⟨hsymbol, _⟩
        · exact hin
        · cases hkind.symm.trans hsymbol
    | symbol =>
        have hnames : Decides (content .symbol)
            (char TokenKind.symbol * (char TokenKind.symbol).star).matches'
            (· ∈ Rule.symbolListTail.emptyBefore) (p.enter .rightHandSide) :=
          (decides_symbolList hfinish').map fun list => [list]
        refine hnames.of_front (fun s hs => Or.inr hs) ?_
        intro s hs
        rcases hside s hs with ⟨hempty, _⟩ | ⟨_, hin⟩
        · cases hkind.symm.trans hempty
        · exact hin
    | semicolon | derives | alsoDerives | endOfInput =>
        refine Decides.fail ⟨[.epsilon], Or.inl rfl⟩ ?_
        intro s hs
        rcases hside s hs with ⟨hother, _⟩ | ⟨hother, _⟩
        · cases hkind.symm.trans hother
        · cases hkind.symm.trans hother
  exact Decides.expand .rightHandSide (hcontent.of_eq rfl rfl rfl)

theorem decides_productionSetTail (hfinish : p.finish.kind = .endOfInput) :
    Decides productionSetTail
      (KStar.kstar ((char TokenKind.alsoDerives).matches' * side.matches'))
      (· ∈ Rule.productionSetTail.emptyBefore) p := by
  refine Decides.expandTail reads_other describes_other (fun other => ⟨other.1, other.2.words, rfl⟩)
    (by decide) (by decide) (by decide) ?_ hfinish
  intro q hq
  refine Decides.expect_bind (by decide) hq ?_ ⟨[.epsilon], Or.inl rfl⟩
  exact fun bar r hr => (decides_rightHandSide hr).map fun alternative => [bar, alternative]

theorem decides_productionSet (hfinish : p.finish.kind = .endOfInput) :
    Decides productionSet opening.matches' (· ∈ Rule.productionSetTail.emptyBefore) p := by
  have hothers : [] ∈ (char TokenKind.alsoDerives * side).star.matches' :=
    Language.nil_mem_kstar _
  have hside : [.epsilon] ∈ side.matches' :=
    Or.inl rfl
  have hsides := Language.append_mem_mul hside hothers
  refine Decides.expand .productionSet (Decides.expect_bind (by decide) hfinish ?_
    ⟨_, Language.append_mem_mul (Set.mem_singleton [TokenKind.derives]) hsides⟩)
  intro head q hq
  refine Decides.expect_bind (by decide) hq ?_ ⟨_, hsides⟩
  intro colon q hq
  refine Decides.bind hq (reads_rightHandSide.completes describes_side)
    (decides_rightHandSide hq) ?_ ⟨[], hothers⟩ ?_
  · intro first r _ hkept
    exact (decides_productionSetTail (hkept ▸ hq)).map fun others => [head, colon, first, others]
  · -- A bar or a semicolon stands behind the first alternative.
    intro s hs kind hkind
    rcases describes_other.kstar_cases (fun other => ⟨other.1, other.2.words, rfl⟩) hs with
      rfl | ⟨_, more, rfl⟩
    · obtain rfl := List.mem_singleton.1 hkind
      decide
    · exact List.mem_cons_of_mem _ List.mem_cons_self

/-- A production set with its semicolon. -/
theorem decides_block (hfinish : p.finish.kind = .endOfInput) :
    Decides (do let set ← productionSet; let stop ← expect .semicolon; return [set, stop])
      block.matches' (fun _ => True) p := by
  rw [matches'_block]
  refine Decides.bind hfinish (reads_productionSet.completes describes_opening)
    (decides_productionSet hfinish) ?_ ⟨_, Set.mem_singleton [TokenKind.semicolon]⟩ ?_
  · intro set q _ hkept
    exact (Decides.expect (by decide) (hkept ▸ hfinish)).map fun stop => [set, stop]
  · rintro _ rfl kind _
    exact List.mem_singleton_self _

theorem decides_productionListTail (hfinish : p.finish.kind = .endOfInput) :
    Decides productionListTail (KStar.kstar block.matches')
      (· ∈ Rule.productionListTail.emptyBefore) p :=
  Decides.expandTail reads_block describes_block (fun b => ⟨b.head, _, rfl⟩) (by decide) trivial
    (fun _ _ => trivial) (fun _ hq => decides_block hq) hfinish

theorem decides_productionList (hfinish : p.finish.kind = .endOfInput) :
    Decides productionList Sentence.grammar.matches'
      (· ∈ Rule.productionListTail.emptyBefore) p := by
  have hgrammar : Sentence.grammar.matches' =
      opening.matches' * ((char .semicolon).matches' * KStar.kstar block.matches') := by
    rw [Sentence.grammar, matches'_mul, matches'_star, matches'_block, mul_assoc]
  have hothers : [] ∈ KStar.kstar block.matches' :=
    Language.nil_mem_kstar _
  rw [hgrammar]
  refine Decides.expand .productionList (Decides.bind hfinish
    (reads_productionSet.completes describes_opening) (decides_productionSet hfinish) ?_
    ⟨_, Language.append_mem_mul (Set.mem_singleton [TokenKind.semicolon]) hothers⟩ ?_)
  · intro set q _ hkept
    refine Decides.expect_bind (by decide) (hkept ▸ hfinish) ?_ ⟨[], hothers⟩
    exact fun stop r hr => (decides_productionListTail hr).map fun others => [set, stop, others]
  · intro s hs kind _
    rcases Language.mem_mul.1 hs with ⟨_, rfl, more, _, rfl⟩
    exact List.mem_singleton_self _

end Parse

/-! ## Whole parses -/

/-- The kinds are the beginning of a sentence with the end of the input behind it. -/
def Sentence.Viable (kinds : List TokenKind) : Prop :=
  ∃ s ∈ Sentence.grammar.matches', kinds <+: s ++ [.endOfInput]

theorem Sentence.ne_endOfInput_of_mem {s : List TokenKind} (hs : s ∈ Sentence.grammar.matches') :
    ∀ kind ∈ s, kind ≠ .endOfInput := by
  rcases Sentence.describes_grammar.exists_item hs with ⟨o, rfl⟩
  intro kind hkind
  rcases List.mem_map.1 hkind with ⟨w, hw, rfl⟩
  exact o.kind_ne_endOfInput w hw

namespace Node

open Parse

variable {tokens : List Token} {e : ParseError}

/-- Where a parse fails, tokens have been taken that a sentence begins with, and no sentence begins
with them and the word at hand. -/
theorem exists_taken_of_error (h : parse tokens = .error e) :
    ∃ (taken : List Token) (q : Progress), Takes (.ofTokens tokens) taken q ∧ e = q.failure ∧
      (∃ s ∈ Sentence.grammar.matches', taken.map Token.kind <+: s) ∧
      ¬ Sentence.Viable (taken.map Token.kind ++ [q.word.kind]) := by
  have hfinish : ((Progress.ofTokens tokens).enter .grammar).finish.kind = .endOfInput := rfl
  have hlist := decides_productionList hfinish
  rw [parse, grammar_eq] at h
  cases hresult : productionList ((Progress.ofTokens tokens).enter .grammar) with
  | error e' q =>
      rw [hresult] at h
      cases h
      rcases hlist.refused hresult with ⟨hfailure, taken, htakes, hbegins, hnone⟩
      refine ⟨taken, q, ⟨htakes.rest, htakes.finish⟩, hfailure, hbegins, ?_⟩
      rintro ⟨s, hs, hfront⟩
      exact hnone s ⟨hs, _, List.mem_singleton_self _, hfront⟩
  | ok list q =>
      rw [hresult] at h
      rcases hlist.accepted hresult with ⟨taken, htakes, htaken, hexact⟩
      by_cases hend : q.word.kind = .endOfInput
      · simp only [hend, if_true] at h
        cases h
      · simp only [hend, if_false] at h
        cases h
        refine ⟨taken, q, ⟨htakes.rest, htakes.finish⟩, rfl, ⟨_, htaken, List.prefix_rfl⟩, ?_⟩
        -- A sentence that begins so is the one that was taken, and has the end behind it.
        rintro ⟨s, hs, hfront⟩
        obtain rfl := hexact s ⟨hs, _, List.mem_singleton_self _, hfront⟩
        exact hend (by simpa [List.prefix_append_right_inj] using hfront)

/-- A failure is reported at the first token that no grammar can have there: the tokens before it
are the beginning of a grammar, and with it they are the beginning of none. Behind the last token
stands the end of the input, on its line. -/
theorem parse_error_at_first_impossible (h : parse tokens = .error e) :
    ∃ (i : Nat) (t : Token), i ≤ tokens.length ∧
      t = tokens.getD i (Token.finish ((tokens.getLast?.map Token.line).getD 1)) ∧
      e.got = t.kind ∧ e.line = t.line ∧ e.text = t.value ∧
      (∀ u ∈ tokens.take i, u.kind ≠ .endOfInput) ∧
      Sentence.Viable ((tokens.take i).map Token.kind) ∧
      ¬ Sentence.Viable ((tokens.take i).map Token.kind ++ [t.kind]) := by
  rcases exists_taken_of_error h with ⟨taken, q, htakes, rfl, ⟨s, hs, hbegins⟩, hnone⟩
  have htokens : tokens = taken ++ q.rest := htakes.rest
  have htake : tokens.take taken.length = taken := by
    rw [htokens, List.take_left]
  have hword : q.word =
      tokens.getD taken.length (Token.finish ((tokens.getLast?.map Token.line).getD 1)) := by
    have hkept : q.finish = Token.finish ((tokens.getLast?.map Token.line).getD 1) := htakes.finish
    rw [Progress.word, hkept]
    generalize Token.finish _ = finish
    rw [htokens, List.getD_eq_getElem?_getD, List.getElem?_append_right le_rfl, Nat.sub_self]
    cases q.rest with
    | nil => rfl
    | cons t rest => rfl
  refine ⟨taken.length, q.word, ?_, hword, rfl, rfl, rfl, ?_, ?_, ?_⟩
  · rw [htokens, List.length_append]
    exact Nat.le_add_right _ _
  · intro u hu
    rw [htake] at hu
    exact Sentence.ne_endOfInput_of_mem hs _ (hbegins.subset (List.mem_map_of_mem hu))
  · rw [htake]
    exact ⟨s, hs, hbegins.trans (List.prefix_append s _)⟩
  · rwa [htake]

/-- `A :`, a grammar that breaks off. -/
def brokenOff : List Token :=
  [⟨.symbol, "A", 1⟩, ⟨.derives, ":", 2⟩]

theorem parse_error_at_first_impossible_brokenOff :
    parse brokenOff = .error
        { expected := .rightHandSide
          got := .endOfInput
          line := 2
          text := ""
          stack := [.grammar, .productionList, .productionSet, .rightHandSide] } ∧
      Sentence.Viable [.symbol, .derives] ∧
      ¬ Sentence.Viable [.symbol, .derives, .endOfInput] := by
  have herror : parse brokenOff = .error
      { expected := .rightHandSide
        got := .endOfInput
        line := 2
        text := ""
        stack := [.grammar, .productionList, .productionSet, .rightHandSide] } :=
    rfl
  refine ⟨herror, ?_⟩
  rcases parse_error_at_first_impossible herror with
    ⟨i, t, hle, rfl, hgot, _, _, _, hviable, hnot⟩
  -- The end is behind the last token.
  have hi : i = 2 := by
    match i, hle, hgot with
    | 0, _, hgot => cases hgot
    | 1, _, hgot => cases hgot
    | 2, _, _ => rfl
  subst hi
  exact ⟨hviable, hnot⟩

end Node
end BnfGrammar
