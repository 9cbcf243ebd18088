import BnfGrammar.Proofs.Source
import BnfGrammar.Sample.Spaced

/-!
# Grammars with their blanks as texts

A grammar with its blanks says which production sets it consists of, and its text is made of one
piece for each word. If the gaps are blanks, if the keywords are spelled as such and if further
names stand behind gaps that are not empty, the text writes the production sets down.
-/

namespace BnfGrammar
namespace Spaced

open Outline (Word)

variable {alternative : Alternative} {set : ProductionSet} {g : Grammar} {front later : List Piece}

/-! ## Production sets -/

/-- The names of an alternative. -/
def Alternative.symbols : Alternative → List String
  | .vanishing _ _ => []
  | .names items => items.map Prod.snd

/-- The alternatives of a production set. -/
def ProductionSet.sides (set : ProductionSet) : List Alternative :=
  set.first :: set.others.map Prod.snd

/-- What a production set says. -/
def ProductionSet.content (set : ProductionSet) : BnfGrammar.ProductionSet :=
  (set.lhs, set.sides.map Alternative.symbols)

/-- What a grammar says. -/
def Grammar.content (g : Grammar) : List BnfGrammar.ProductionSet :=
  g.sets.map ProductionSet.content

/-! ## Pieces -/

def Alternative.pieces : Alternative → List Piece
  | .vanishing gap keyword => [⟨gap.toList, .epsilon, keyword⟩]
  | .names items => items.map fun item => ⟨item.1.toList, .symbol, item.2⟩

/-- The piece of a sign. -/
def signPiece (gap : String) (kind : TokenKind) (sign : String) : Piece :=
  ⟨gap.toList, kind, sign⟩

/-- The pieces of alternatives that each stand behind a bar. -/
def barredPieces (others : List (String × Alternative)) : List Piece :=
  others.flatMap fun other => signPiece other.1 .alsoDerives "|" :: other.2.pieces

def ProductionSet.pieces (set : ProductionSet) : List Piece :=
  ⟨set.gap.toList, .symbol, set.lhs⟩ :: signPiece set.colonGap .derives ":" ::
    (set.first.pieces ++ barredPieces set.others ++ [signPiece set.stopGap .semicolon ";"])

def Grammar.pieces (g : Grammar) : List Piece :=
  g.sets.flatMap ProductionSet.pieces

theorem Alternative.texts_pieces (alternative : Alternative) :
    Piece.texts alternative.pieces = alternative.text.toList := by
  cases alternative with
  | vanishing gap keyword => simp [Piece.texts, pieces, text]
  | names items => simp [Piece.texts, pieces, text, String.toList_join, List.flatMap_map]

theorem texts_append (front later : List Piece) :
    Piece.texts (front ++ later) = Piece.texts front ++ Piece.texts later :=
  List.flatMap_append

theorem texts_cons (piece : Piece) (later : List Piece) :
    Piece.texts (piece :: later) = piece.gap ++ piece.word.2.toList ++ Piece.texts later :=
  List.flatMap_cons

theorem texts_barredPieces (others : List (String × Alternative)) :
    Piece.texts (barredPieces others) =
      others.flatMap fun other => (other.1 ++ "|" ++ other.2.text).toList := by
  induction others with
  | nil => rfl
  | cons other others ih =>
      rw [barredPieces, List.flatMap_cons, texts_append, texts_cons, Alternative.texts_pieces,
        List.flatMap_cons, ← ih]
      simp [signPiece, barredPieces]

theorem ProductionSet.texts_pieces (set : ProductionSet) :
    Piece.texts set.pieces = set.text.toList := by
  simp only [pieces, texts_cons, texts_append, Alternative.texts_pieces, texts_barredPieces, text,
    String.toList_append, String.toList_join, List.flatMap_map, signPiece]
  simp [Piece.texts]

theorem Grammar.texts_pieces (g : Grammar) :
    g.text.toList = Piece.texts g.pieces ++ g.lastGap.toList := by
  have hsets : Piece.texts g.pieces = (String.join (g.sets.map ProductionSet.text)).toList := by
    rw [String.toList_join, List.flatMap_map, pieces, Piece.texts, List.flatMap_assoc]
    exact List.flatMap_congr fun set _ => set.texts_pieces
  rw [text, String.toList_append, hsets]

/-! ## Sound grammars -/

/-- The gaps and the keyword of an alternative are what they should be. Every name but the first
stands behind a gap that is not empty. -/
inductive Alternative.Sound : Alternative → Prop
  | vanishing {gap keyword : String} : Blank gap.toList → spellsEpsilon keyword.toList = true →
      Sound (.vanishing gap keyword)
  | names {first : String × String} {others : List (String × String)} : Blank first.1.toList →
      (∀ item ∈ others, Blank item.1.toList ∧ item.1 ≠ "") → Sound (.names (first :: others))

/-- The gaps of a production set are blanks and its alternatives are sound. -/
structure ProductionSet.Sound (set : ProductionSet) : Prop where
  gap : Blank set.gap.toList
  colonGap : Blank set.colonGap.toList
  first : set.first.Sound
  others : ∀ other ∈ set.others, Blank other.1.toList ∧ other.2.Sound
  stopGap : Blank set.stopGap.toList

/-- The production sets of a grammar are sound and it ends in blanks. -/
structure Grammar.Sound (g : Grammar) : Prop where
  sets : ∀ set ∈ g.sets, set.Sound
  lastGap : Blank g.lastGap.toList

/-! ## Words -/

theorem Alternative.Sound.writes (h : alternative.Sound) :
    WritesAlternative alternative.symbols (alternative.pieces.map Piece.word) := by
  cases h with
  | vanishing _ hspells => exact .empty hspells
  | @names first others _ _ =>
      have hwords : (pieces (.names (first :: others))).map Piece.word =
          (first.2 :: others.map Prod.snd).map (.symbol, ·) := by
        simp [pieces]
      rw [hwords]
      exact .names first.2 (others.map Prod.snd)

theorem ProductionSet.Sound.writes (h : set.Sound) :
    WritesAlternatives (set.sides.map Alternative.symbols)
      ((set.first.pieces ++ barredPieces set.others).map Piece.word) := by
  rcases set with ⟨gap, lhs, colonGap, first, others, stopGap⟩
  have hfirst := h.first
  have hothers := h.others
  simp only [sides] at hfirst hothers ⊢
  -- By induction on the alternatives behind bars, for any first one.
  clear h
  induction others generalizing first with
  | nil => simpa [barredPieces] using WritesAlternatives.last hfirst.writes
  | cons other others ih =>
      rcases List.forall_mem_cons.1 hothers with ⟨⟨_, hother⟩, hlater⟩
      have hrest := ih other.2 hother hlater
      simpa [barredPieces, signPiece] using WritesAlternatives.cons hfirst.writes hrest

theorem Grammar.Sound.writes (h : g.Sound) :
    WritesSets g.content (g.pieces.map Piece.word) := by
  have hsets := h.sets
  rw [content, pieces]
  generalize g.sets = sets at hsets ⊢
  induction sets with
  | nil => exact .nil
  | cons set sets ih =>
      rcases List.forall_mem_cons.1 hsets with ⟨hset, hlater⟩
      have hwrites : WritesSets (set.content :: _) _ := .cons hset.writes (ih hlater)
      simpa [ProductionSet.content, ProductionSet.pieces, signPiece] using hwrites

/-! ## Gaps -/

theorem Alternative.Sound.blank (h : alternative.Sound) :
    ∀ piece ∈ alternative.pieces, Blank piece.gap := by
  cases h with
  | vanishing hgap _ => simpa [pieces] using hgap
  | names hfirst hothers =>
      simp only [pieces, List.map_cons, List.forall_mem_cons, List.forall_mem_map]
      exact ⟨hfirst, fun item hitem => (hothers item hitem).1⟩

theorem ProductionSet.Sound.blank (h : set.Sound) : ∀ piece ∈ set.pieces, Blank piece.gap := by
  simp only [pieces, barredPieces, signPiece, List.forall_mem_cons, List.forall_mem_append,
    List.forall_mem_flatMap]
  refine ⟨h.gap, h.colonGap, ⟨h.first.blank, ?_⟩, h.stopGap, by simp⟩
  intro other hother
  exact ⟨(h.others other hother).1, (h.others other hother).2.blank⟩

/-- Two names that stand side by side have blanks between them. -/
def NamesApart (pieces : List Piece) : Prop :=
  pieces.IsChain fun piece next =>
    piece.word.1 = .symbol → next.word.1 = .symbol → next.gap ≠ []

/-- A sign may stand anywhere. -/
theorem NamesApart.join (h : NamesApart front) (sign : Piece) (hsign : sign.word.1 ≠ .symbol)
    (hlater : NamesApart later) : NamesApart (front ++ sign :: later) := by
  unfold NamesApart at *
  simp [List.isChain_append, List.isChain_cons, h, hlater, hsign]

theorem Alternative.Sound.namesApart (h : alternative.Sound) : NamesApart alternative.pieces := by
  cases h with
  | vanishing _ _ => exact .singleton _
  | @names first others _ hothers =>
      have hpairwise : (first :: others).Pairwise fun _ item => item.1 ≠ "" := by
        refine List.pairwise_cons.2 ⟨fun item hitem => (hothers item hitem).2, ?_⟩
        exact List.pairwise_of_forall_mem_list fun _ _ item hitem => (hothers item hitem).2
      rw [NamesApart, pieces, List.isChain_map]
      exact hpairwise.isChain.imp fun _ item hne _ _ => by simpa using hne

theorem namesApart_barredPieces {others : List (String × Alternative)}
    (h : ∀ other ∈ others, other.2.Sound) (hfront : NamesApart front) :
    NamesApart (front ++ barredPieces others) := by
  induction others generalizing front with
  | nil => simpa [barredPieces] using hfront
  | cons other others ih =>
      rcases List.forall_mem_cons.1 h with ⟨hother, hlater⟩
      have hjoined := hfront.join (signPiece other.1 .alsoDerives "|") (by simp [signPiece])
        hother.namesApart
      simpa [barredPieces] using ih hlater hjoined

theorem ProductionSet.Sound.namesApart (h : set.Sound) (hlater : NamesApart later) :
    NamesApart (set.pieces ++ later) := by
  have hsides : NamesApart (set.first.pieces ++ barredPieces set.others) :=
    namesApart_barredPieces (fun other hother => (h.others other hother).2) h.first.namesApart
  have hstopped := hsides.join (signPiece set.stopGap .semicolon ";") (by simp [signPiece])
    hlater
  have hname : NamesApart [⟨set.gap.toList, .symbol, set.lhs⟩] := .singleton _
  simpa [pieces] using hname.join (signPiece set.colonGap .derives ":")
    (by simp [signPiece]) hstopped

theorem Grammar.Sound.namesApart (h : g.Sound) : NamesApart g.pieces := by
  have hsets := h.sets
  rw [pieces]
  generalize g.sets = sets at hsets ⊢
  induction sets with
  | nil => exact .nil
  | cons set sets ih =>
      rcases List.forall_mem_cons.1 hsets with ⟨hset, hlater⟩
      exact hset.namesApart (ih hlater)

/-- The text of a sound grammar writes its production sets down. -/
theorem Grammar.Sound.text_writes (h : g.Sound) : Writes g.text g.content := by
  have hblank : ∀ piece ∈ g.pieces, Blank piece.gap := by
    rw [pieces, List.forall_mem_flatMap]
    exact fun set hset => (h.sets set hset).blank
  exact ⟨g.pieces, g.lastGap.toList, g.texts_pieces, h.writes, hblank, h.lastGap, h.namesApart⟩

end Spaced
end BnfGrammar
