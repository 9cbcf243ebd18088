import BnfGrammar.Proofs.SyntaxTree.Outline
import Mathlib.Computability.RegularExpressions

/-!
# Sentences of the grammar notation

Although its rules are written as a context-free grammar, the notation is a regular language over
the kinds of words. Words whose kinds form a sentence are exactly the words of outlines: the texts
of the words do not matter.
-/

namespace BnfGrammar
namespace Sentence

open RegularExpression Outline

/-- `EPSILON | SYMBOL+` -/
def side : RegularExpression TokenKind :=
  char .epsilon + char .symbol * (char .symbol).star

/-- `SYMBOL DERIVES side (ALSODERIVES side)* SEMICOLON` -/
def block : RegularExpression TokenKind :=
  char .symbol * (char .derives * (side * ((char TokenKind.alsoDerives * side).star * char .semicolon)))

/-- `SYMBOL DERIVES side (ALSODERIVES side)*`: a block without its semicolon. -/
def opening : RegularExpression TokenKind :=
  char .symbol * (char .derives * (side * (char TokenKind.alsoDerives * side).star))

/-- One production set or more. -/
def grammar : RegularExpression TokenKind :=
  block * block.star

/-! ## Sentences and what they describe -/

/-- The words whose kinds are in a language are the words of some items. -/
def Describes {α : Type} (l : Language TokenKind) (words : α → List Word) : Prop :=
  ∀ ws : List Word, ws.map Prod.fst ∈ l ↔ ∃ item, words item = ws

namespace Describes

variable {α β : Type} {l m : Language TokenKind} {f : α → List Word} {h : β → List Word}

theorem char (kind : TokenKind) :
    Describes (RegularExpression.char kind).matches' fun text : String => [(kind, text)] := by
  intro ws
  rw [matches'_char]
  constructor
  · intro hkinds
    rcases List.map_eq_singleton_iff.1 hkinds with ⟨⟨kind', text⟩, rfl, rfl⟩
    exact ⟨text, rfl⟩
  · rintro ⟨text, rfl⟩
    rfl

theorem mul (hl : Describes l f) (hm : Describes m h) :
    Describes (l * m) fun items : α × β => f items.1 ++ h items.2 := by
  intro ws
  rw [Language.mem_mul]
  constructor
  · rintro ⟨a, ha, b, hb, hkinds⟩
    rcases List.append_eq_map_iff.1 hkinds with ⟨front, back, rfl, rfl, rfl⟩
    rcases (hl front).1 ha with ⟨item, rfl⟩
    rcases (hm back).1 hb with ⟨item', rfl⟩
    exact ⟨(item, item'), rfl⟩
  · rintro ⟨⟨item, item'⟩, rfl⟩
    exact ⟨_, (hl _).2 ⟨item, rfl⟩, _, (hm _).2 ⟨item', rfl⟩, List.map_append.symm⟩

theorem kstar (hl : Describes l f) :
    Describes (KStar.kstar l) fun items : List α => items.flatMap f := by
  intro ws
  rw [Language.mem_kstar]
  constructor
  · rintro ⟨parts, hkinds, hparts⟩
    -- The words are cut where the parts of their kinds are.
    induction parts generalizing ws with
    | nil =>
        obtain rfl := List.map_eq_nil_iff.1 hkinds
        exact ⟨[], rfl⟩
    | cons part parts ih =>
        rcases List.map_eq_append_iff.1 hkinds with ⟨front, back, rfl, hfront, hback⟩
        rcases (hl front).1 (hfront ▸ hparts part List.mem_cons_self) with ⟨item, rfl⟩
        rcases ih back hback fun x hx => hparts x (List.mem_cons_of_mem part hx) with ⟨items, rfl⟩
        exact ⟨item :: items, rfl⟩
  · rintro ⟨items, rfl⟩
    refine ⟨items.map fun item => (f item).map Prod.fst, ?_, ?_⟩
    · rw [List.map_flatMap, List.flatMap_def]
    · intro part hpart
      rcases List.mem_map.1 hpart with ⟨item, _, rfl⟩
      exact (hl _).2 ⟨item, rfl⟩

/-- Every sentence is the kinds of the words of an item, whatever the texts of the words are. -/
theorem exists_item (hl : Describes l f) {s : List TokenKind} (hs : s ∈ l) :
    ∃ item, (f item).map Prod.fst = s := by
  have hkinds : (s.map fun kind => (kind, "")).map Prod.fst = s := by
    simp [Function.comp_def]
  rcases (hl _).1 (hkinds.symm ▸ hs) with ⟨item, hitem⟩
  exact ⟨item, hitem.symm ▸ hkinds⟩

theorem exists_start {start : TokenKind} (hl : Describes l f)
    (hstart : ∀ item, ∃ text more, f item = (start, text) :: more) {s : List TokenKind}
    (hs : s ∈ l) : ∃ more, s = start :: more := by
  rcases hl.exists_item hs with ⟨item, rfl⟩
  rcases hstart item with ⟨text, more, hitem⟩
  exact ⟨more.map Prod.fst, congrArg (List.map Prod.fst) hitem⟩

/-- A sequence of sentences is empty or has a first sentence. -/
theorem kstar_cases {start : TokenKind} (hl : Describes l f)
    (hstart : ∀ item, ∃ text more, f item = (start, text) :: more) {s : List TokenKind}
    (hs : s ∈ KStar.kstar l) : s = [] ∨ s ∈ l * KStar.kstar l ∧ ∃ more, s = start :: more := by
  rw [← Language.one_add_self_mul_kstar_eq_kstar] at hs
  rcases hs with hnil | hmore
  · exact Or.inl hnil
  · rcases Language.mem_mul.1 hmore with ⟨first, hfirst, rest, _, rfl⟩
    rcases hl.exists_start hstart hfirst with ⟨more, rfl⟩
    exact Or.inr ⟨hmore, more ++ rest, rfl⟩

end Describes

/-! ## The words of outlines -/

theorem words_names (first : String) (others : List String) :
    (Side.names first others).words =
      [(.symbol, first)] ++ others.flatMap fun name => [(.symbol, name)] := by
  have hothers : (others.flatMap fun name => [(TokenKind.symbol, name)]) =
      others.map (TokenKind.symbol, ·) :=
    List.map_eq_flatMap.symm
  rw [hothers]
  rfl

theorem describes_side : Describes side.matches' Side.words := by
  have hempty := Describes.char .epsilon
  have hnames := (Describes.char .symbol).mul (Describes.char .symbol).kstar
  intro ws
  rw [side, matches'_add, matches'_mul, matches'_star, Language.mem_add, hempty ws, hnames ws]
  constructor
  · rintro (⟨text, rfl⟩ | ⟨⟨first, others⟩, rfl⟩)
    · exact ⟨.empty text, rfl⟩
    · exact ⟨.names first others, words_names first others⟩
  · rintro ⟨s, rfl⟩
    cases s with
    | empty text => exact Or.inl ⟨text, rfl⟩
    | names first others =>
        exact Or.inr ⟨(first, others), (words_names first others).symm⟩

/-- `ALSODERIVES side` -/
theorem describes_other :
    Describes ((RegularExpression.char TokenKind.alsoDerives).matches' * side.matches')
      fun other : String × Side => (.alsoDerives, other.1) :: other.2.words :=
  (Describes.char .alsoDerives).mul describes_side

theorem describes_opening : Describes opening.matches' Block.opening := by
  -- A tuple has no text for the semicolon, so any will do.
  have hparts := (Describes.char .symbol).mul ((Describes.char .derives).mul
    (describes_side.mul describes_other.kstar))
  intro ws
  refine (hparts ws).trans ?_
  constructor
  · rintro ⟨⟨head, colon, first, others⟩, rfl⟩
    exact ⟨⟨head, colon, first, others, ""⟩, rfl⟩
  · rintro ⟨b, rfl⟩
    exact ⟨(b.head, b.colon, b.first, b.others), rfl⟩

theorem matches'_block :
    block.matches' = opening.matches' * (RegularExpression.char .semicolon).matches' := by
  simp only [block, opening, matches'_mul, mul_assoc]

theorem describes_block : Describes block.matches' Block.words := by
  -- The items of the expression are tuples in the order of the fields of a block.
  have hother := (Describes.char .alsoDerives).mul describes_side
  have hparts := (Describes.char .symbol).mul ((Describes.char .derives).mul
    (describes_side.mul (hother.kstar.mul (Describes.char .semicolon))))
  intro ws
  rw [block]
  simp only [matches'_mul, matches'_star]
  rw [hparts ws]
  constructor
  · rintro ⟨⟨head, colon, first, others, stop⟩, rfl⟩
    refine ⟨⟨head, colon, first, others, stop⟩, ?_⟩
    simp [Block.words, Block.opening]
  · rintro ⟨b, rfl⟩
    refine ⟨(b.head, b.colon, b.first, b.others, b.stop), ?_⟩
    simp [Block.words, Block.opening]

/-- The sentences are the kinds of the words of outlines. -/
theorem describes_grammar : Describes grammar.matches' Outline.words := by
  have hblocks := describes_block.mul describes_block.kstar
  intro ws
  rw [grammar, matches'_mul, matches'_star, hblocks ws]
  constructor
  · rintro ⟨⟨first, others⟩, rfl⟩
    exact ⟨⟨first, others⟩, rfl⟩
  · rintro ⟨o, rfl⟩
    exact ⟨(o.first, o.others), rfl⟩

/-! ## Production sets of a sentence -/

theorem exists_opening_of_mem_block {s : List TokenKind} (hs : s ∈ block.matches') :
    ∃ before, .semicolon ∉ before ∧ s = before ++ [.semicolon] := by
  rw [matches'_block] at hs
  rcases Language.mem_mul.1 hs with ⟨before, hbefore, _, rfl, rfl⟩
  rcases describes_opening.exists_item hbefore with ⟨b, rfl⟩
  refine ⟨_, ?_, rfl⟩
  intro hmem
  rcases List.mem_map.1 hmem with ⟨w, hw, hkind⟩
  exact b.kind_ne_semicolon w hw hkind

theorem exists_sets_of_mem_grammar {s : List TokenKind} (hs : s ∈ grammar.matches') :
    ∃ sets : List (List TokenKind), s = sets.flatten ∧ ∀ set ∈ sets, set ∈ block.matches' := by
  rw [grammar, matches'_mul, matches'_star] at hs
  rcases Language.mem_mul.1 hs with ⟨first, hfirst, rest, hrest, rfl⟩
  rcases Language.mem_kstar.1 hrest with ⟨others, rfl, hothers⟩
  exact ⟨first :: others, rfl, List.forall_mem_cons.2 ⟨hfirst, hothers⟩⟩

/-- The beginning of some production sets is that of one of them behind the complete ones. -/
theorem exists_complete_of_prefix {sets : List (List TokenKind)}
    (hsets : ∀ set ∈ sets, set ∈ block.matches') : ∀ {kinds : List TokenKind},
      kinds <+: sets.flatten →
      ∃ (complete : List (List TokenKind)) (unfinished : List TokenKind),
        kinds = complete.flatten ++ unfinished ∧ (∀ set ∈ complete, set ∈ block.matches') ∧
          .semicolon ∉ unfinished := by
  induction sets with
  | nil =>
      intro kinds hkinds
      exact ⟨[], [], List.prefix_nil.1 hkinds, by simp, List.not_mem_nil⟩
  | cons set sets ih =>
      intro kinds hkinds
      rcases List.forall_mem_cons.1 hsets with ⟨hset, hothers⟩
      rcases exists_opening_of_mem_block hset with ⟨before, hbefore, rfl⟩
      have hfront : before ++ [.semicolon] <+: (before ++ [.semicolon]) ++ sets.flatten :=
        List.prefix_append _ _
      -- The beginning ends inside the first set, or it has all of that set.
      rcases List.prefix_or_prefix_of_prefix hkinds hfront with hinside | ⟨rest, rfl⟩
      · rcases List.prefix_concat_iff.1 hinside with rfl | hunfinished
        · exact ⟨[before ++ [.semicolon]], [], by simp, by simpa using hset, List.not_mem_nil⟩
        · exact ⟨[], kinds, rfl, by simp, fun hmem => hbefore (hunfinished.subset hmem)⟩
      · rcases ih hothers ((List.prefix_append_right_inj _).1 hkinds) with
          ⟨complete, unfinished, rfl, hcomplete, hunfinished⟩
        exact ⟨(before ++ [.semicolon]) :: complete, unfinished, by simp,
          List.forall_mem_cons.2 ⟨hset, hcomplete⟩, hunfinished⟩

end Sentence
end BnfGrammar
