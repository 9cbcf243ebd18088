import BnfGrammar.SyntaxTree.Rule
import Mathlib.Data.List.DropRight

/-!
# Places in a grammar text

How far a grammar text has come can be told from the kinds of its words. A place says how many
production sets are complete and what has been read of the next one. A word leads from a place to
the place behind it, if it may stand there at all.

* `Place.openRules` says which rules are open at a place: those that could not be closed yet, and
  those that have been opened to look for the next word.
* `Rule.openBehind` says which rules are open behind some complete production sets and the words of
  an unfinished one, by counting the sets, the bars in the unfinished one, and the names behind its
  last colon or bar.

Wherever such words lead, both say the same.
-/

namespace BnfGrammar

/-! ## Places -/

/-- What has been read of a production set. -/
inductive Stage
  /-- Nothing. -/
  | start
  /-- Its left-hand side. -/
  | head
  /-- The colon or a bar last, and this many bars in all. -/
  | side (bars : Nat)
  /-- The word for the empty alternative last. -/
  | empty (bars : Nat)
  /-- A name and this many names more last. -/
  | names (bars more : Nat)
  deriving DecidableEq, Repr

/-- The stage behind a word. A semicolon starts the next production set. -/
def Stage.step : Stage → TokenKind → Option Stage
  | .start, .symbol => some .head
  | .head, .derives => some (.side 0)
  | .side bars, .epsilon => some (.empty bars)
  | .side bars, .symbol => some (.names bars 0)
  | .names bars more, .symbol => some (.names bars (more + 1))
  | .empty bars, .alsoDerives => some (.side (bars + 1))
  | .names bars _, .alsoDerives => some (.side (bars + 1))
  | .empty _, .semicolon => some .start
  | .names _ _, .semicolon => some .start
  | _, _ => none

/-- A place in a grammar text: the number of complete production sets and what has been read of the
next one. -/
structure Place where
  sets : Nat
  stage : Stage
  deriving DecidableEq, Repr

namespace Place

def start : Place :=
  ⟨0, .start⟩

/-- The place behind a word. -/
def step (x : Place) (kind : TokenKind) : Option Place :=
  (x.stage.step kind).map fun stage =>
    ⟨if kind = .semicolon then x.sets + 1 else x.sets, stage⟩

/-- The place behind some words. -/
def run (x : Place) (kinds : List TokenKind) : Option Place :=
  kinds.foldlM step x

@[simp]
theorem run_nil (x : Place) : x.run [] = some x :=
  rfl

theorem run_append_eq_some_iff {x z : Place} {kinds more : List TokenKind} :
    x.run (kinds ++ more) = some z ↔ ∃ y, x.run kinds = some y ∧ y.run more = some z := by
  simp [run, List.foldlM_append, Option.bind_eq_some_iff]

theorem run_singleton (x : Place) (kind : TokenKind) : x.run [kind] = x.step kind := by
  simp [run]

end Place

/-! ## Open rules of places -/

/-- The rules that are open inside a production set. -/
def Stage.openRules : Stage → List Rule
  | .start | .head => []
  | .side bars => List.replicate bars .productionSetTail ++ [.rightHandSide]
  | .empty bars => List.replicate (bars + 1) .productionSetTail
  | .names bars more =>
      List.replicate bars .productionSetTail ++
        .rightHandSide :: .symbolList :: List.replicate (more + 1) .symbolListTail

namespace Place

/-- The rules that are open around the production set behind some complete ones. -/
def outerRules (sets : Nat) : List Rule :=
  .grammar :: .productionList :: List.replicate sets .productionListTail

def openRules (x : Place) : List Rule :=
  outerRules x.sets ++ .productionSet :: x.stage.openRules

/-- The innermost of the open rules is one of four. -/
theorem exists_innermost (x : Place) :
    ∃ outer rule, x.openRules = outer ++ [rule] ∧
      rule ∈ [Rule.productionSet, .productionSetTail, .rightHandSide, .symbolListTail] := by
  rcases x with ⟨sets, stage⟩
  cases stage with
  | start | head => exact ⟨outerRules sets, .productionSet, rfl, by decide⟩
  | side bars =>
      refine ⟨outerRules sets ++ .productionSet :: List.replicate bars .productionSetTail,
        .rightHandSide, ?_, by decide⟩
      simp [openRules, Stage.openRules]
  | empty bars =>
      refine ⟨outerRules sets ++ .productionSet :: List.replicate bars .productionSetTail,
        .productionSetTail, ?_, by decide⟩
      simp [openRules, Stage.openRules, List.replicate_succ']
  | names bars more =>
      refine ⟨outerRules sets ++ .productionSet :: (List.replicate bars .productionSetTail ++
        .rightHandSide :: .symbolList :: List.replicate more .symbolListTail),
        .symbolListTail, ?_, by decide⟩
      simp [openRules, Stage.openRules, List.replicate_succ']

end Place

/-! ## Open rules by counting -/

/-- The number of names behind the last colon or bar. -/
def namesBehind (kinds : List TokenKind) : Nat :=
  (kinds.rtakeWhile fun kind => kind ≠ .derives ∧ kind ≠ .alsoDerives).count .symbol

theorem namesBehind_concat (kinds : List TokenKind) (kind : TokenKind) :
    namesBehind (kinds ++ [kind]) =
      if kind = .derives ∨ kind = .alsoDerives then 0
      else namesBehind kinds + [kind].count .symbol := by
  rw [namesBehind, List.rtakeWhile_concat]
  by_cases hkind : kind = .derives ∨ kind = .alsoDerives
  · rw [if_pos hkind, if_neg (by simpa [or_iff_not_imp_left] using hkind)]
    rfl
  · rw [if_neg hkind, if_pos (by simpa [not_or] using hkind), List.count_append]
    rfl

/-- Behind a colon or a bar there are no names yet. -/
theorem namesBehind_of_getLast? {kinds : List TokenKind}
    (h : kinds.getLast? = some .derives ∨ kinds.getLast? = some .alsoDerives) :
    namesBehind kinds = 0 := by
  rcases List.eq_nil_or_concat' kinds with rfl | ⟨front, last, rfl⟩
  · rfl
  · rw [namesBehind_concat, if_pos (by simpa using h)]

/-- The rules that are open inside an unfinished production set. With less than a left-hand side and
a colon there are none. -/
def Rule.openInSet (kinds : List TokenKind) : List Rule :=
  let bars := kinds.count .alsoDerives
  if kinds.length < 2 then []
  else if kinds.getLast? = some .derives ∨ kinds.getLast? = some .alsoDerives then
    List.replicate bars .productionSetTail ++ [.rightHandSide]
  else if kinds.getLast? = some .epsilon then
    List.replicate (bars + 1) .productionSetTail
  else
    List.replicate bars .productionSetTail ++
      [.rightHandSide, .symbolList] ++ List.replicate (namesBehind kinds) .symbolListTail

/-- The rules that are open behind some complete production sets and the words of an unfinished
one. -/
def Rule.openBehind (sets : Nat) (kinds : List TokenKind) : List Rule :=
  [.grammar, .productionList] ++ List.replicate sets .productionListTail ++ [.productionSet] ++
    openInSet kinds

/-- A stage tells what can be counted in a production set. -/
def Stage.Counts : Stage → List TokenKind → Prop
  | .start, kinds => kinds = []
  | .head, kinds => kinds = [.symbol]
  | .side bars, kinds => 2 ≤ kinds.length ∧ kinds.count .alsoDerives = bars ∧
      (kinds.getLast? = some .derives ∨ kinds.getLast? = some .alsoDerives)
  | .empty bars, kinds => 2 ≤ kinds.length ∧ kinds.count .alsoDerives = bars ∧
      kinds.getLast? = some .epsilon
  | .names bars more, kinds => 2 ≤ kinds.length ∧ kinds.count .alsoDerives = bars ∧
      kinds.getLast? = some .symbol ∧ namesBehind kinds = more + 1

namespace Stage.Counts

variable {s t : Stage} {kinds : List TokenKind} {kind : TokenKind}

theorem openInSet_eq (h : s.Counts kinds) : Rule.openInSet kinds = s.openRules := by
  cases s with
  | start =>
      obtain rfl : kinds = [] := h
      rfl
  | head =>
      obtain rfl : kinds = [.symbol] := h
      rfl
  | side bars =>
      rcases h with ⟨hlength, hbars, hlast⟩
      simp [Rule.openInSet, Stage.openRules, hlength.not_gt, hbars, hlast]
  | empty bars =>
      rcases h with ⟨hlength, hbars, hlast⟩
      simp [Rule.openInSet, Stage.openRules, hlength.not_gt, hbars, hlast]
  | names bars more =>
      rcases h with ⟨hlength, hbars, hlast, hnames⟩
      simp [Rule.openInSet, Stage.openRules, hlength.not_gt, hbars, hlast, hnames]

/-- A word that does not end the production set goes on with it. -/
theorem step (h : s.Counts kinds) (hstep : s.step kind = some t) (hkind : kind ≠ .semicolon) :
    t.Counts (kinds ++ [kind]) := by
  have hlonger : 2 ≤ kinds.length → 2 ≤ (kinds ++ [kind]).length := by
    intro hlength
    rw [List.length_append]
    exact Nat.le_add_right_of_le hlength
  -- One case for each word that may come at the stage. The others lead nowhere.
  cases s with
  | start =>
      obtain rfl : kinds = [] := h
      cases kind with
      | symbol =>
          cases hstep
          rfl
      | semicolon | derives | alsoDerives | epsilon | endOfInput => cases hstep
  | head =>
      obtain rfl : kinds = [.symbol] := h
      cases kind with
      | derives =>
          cases hstep
          exact ⟨by decide, rfl, Or.inl rfl⟩
      | semicolon | alsoDerives | epsilon | symbol | endOfInput => cases hstep
  | side bars =>
      rcases h with ⟨hlength, hbars, hlast⟩
      cases kind with
      | epsilon =>
          cases hstep
          exact ⟨hlonger hlength, by simpa using hbars, by simp⟩
      | symbol =>
          cases hstep
          have hnames : namesBehind (kinds ++ [.symbol]) = 1 := by
            rw [namesBehind_concat, namesBehind_of_getLast? hlast]
            rfl
          exact ⟨hlonger hlength, by simpa using hbars, by simp, hnames⟩
      | semicolon | derives | alsoDerives | endOfInput => cases hstep
  | empty bars =>
      rcases h with ⟨hlength, hbars, _⟩
      cases kind with
      | alsoDerives =>
          cases hstep
          exact ⟨hlonger hlength, by simpa using hbars, by simp⟩
      | semicolon => exact absurd rfl hkind
      | derives | epsilon | symbol | endOfInput => cases hstep
  | names bars more =>
      rcases h with ⟨hlength, hbars, _, hnames⟩
      cases kind with
      | symbol =>
          cases hstep
          have hmore : namesBehind (kinds ++ [.symbol]) = more + 2 := by
            rw [namesBehind_concat, hnames]
            rfl
          exact ⟨hlonger hlength, by simpa using hbars, by simp, hmore⟩
      | alsoDerives =>
          cases hstep
          exact ⟨hlonger hlength, by simpa using hbars, by simp⟩
      | semicolon => exact absurd rfl hkind
      | derives | epsilon | endOfInput => cases hstep

end Stage.Counts

namespace Place

variable {x y : Place} {n : Nat} {kinds : List TokenKind}

theorem eq_of_step_semicolon (h : x.step .semicolon = some y) : y = ⟨x.sets + 1, .start⟩ := by
  rcases x with ⟨sets, stage⟩
  cases stage with
  | start | head | side => cases h
  | empty | names =>
      cases h
      rfl

/-- The words of an unfinished production set lead to a stage that tells what can be counted in
them. -/
theorem counts_of_run (hkinds : .semicolon ∉ kinds) : ∀ {y : Place},
    (⟨n, .start⟩ : Place).run kinds = some y → y.sets = n ∧ y.stage.Counts kinds := by
  -- By induction from the last word, since a stage tells about all words up to it.
  induction kinds using List.reverseRecOn with
  | nil =>
      intro y hrun
      cases hrun
      exact ⟨rfl, rfl⟩
  | append_singleton kinds kind ih =>
      intro y hrun
      rcases run_append_eq_some_iff.1 hrun with ⟨x, hbefore, hlast⟩
      rcases ih (fun hmem => hkinds (List.mem_append_left _ hmem)) hbefore with ⟨rfl, hcounts⟩
      have hkind : kind ≠ .semicolon := by
        rintro rfl
        exact hkinds (List.mem_append_right _ (List.mem_singleton_self _))
      rw [run_singleton, step, Option.map_eq_some_iff] at hlast
      rcases hlast with ⟨stage, hstage, rfl⟩
      exact ⟨if_neg hkind, hcounts.step hstage hkind⟩

/-- Every complete production set leads to the start of the next one. -/
theorem eq_of_run_flatten {sets : List (List TokenKind)}
    (hsets : ∀ set ∈ sets, ∃ opening, .semicolon ∉ opening ∧ set = opening ++ [.semicolon]) :
    ∀ {n : Nat}, (⟨n, .start⟩ : Place).run sets.flatten = some y →
      y = ⟨n + sets.length, .start⟩ := by
  induction sets with
  | nil =>
      intro n hrun
      cases hrun
      rfl
  | cons set sets ih =>
      intro n hrun
      rcases hsets set List.mem_cons_self with ⟨opening, hopening, rfl⟩
      rcases run_append_eq_some_iff.1 hrun with ⟨x, hset, hrest⟩
      rcases run_append_eq_some_iff.1 hset with ⟨w, hbefore, hlast⟩
      have hw : w.sets = n := (counts_of_run hopening hbefore).1
      obtain rfl : x = ⟨n + 1, .start⟩ := by
        rw [← hw]
        exact eq_of_step_semicolon (run_singleton w .semicolon ▸ hlast)
      rw [ih (fun set hset => hsets set (List.mem_cons_of_mem _ hset)) hrest, List.length_cons]
      congr 1
      omega

/-- The rules that are open behind some words can be counted off the words. -/
theorem openRules_eq_openBehind {sets : List (List TokenKind)}
    (hsets : ∀ set ∈ sets, ∃ opening, .semicolon ∉ opening ∧ set = opening ++ [.semicolon])
    (hkinds : .semicolon ∉ kinds) (hrun : start.run (sets.flatten ++ kinds) = some y) :
    y.openRules = Rule.openBehind sets.length kinds := by
  rcases run_append_eq_some_iff.1 hrun with ⟨x, hcomplete, hunfinished⟩
  obtain rfl : x = ⟨0 + sets.length, .start⟩ := eq_of_run_flatten hsets hcomplete
  rcases counts_of_run hkinds hunfinished with ⟨hcount, hcounts⟩
  rw [openRules, hcount, Rule.openBehind, hcounts.openInSet_eq]
  simp [outerRules]

end Place
end BnfGrammar
