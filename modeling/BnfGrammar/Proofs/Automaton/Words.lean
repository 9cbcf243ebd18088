import BnfGrammar.Automaton.Words
import BnfGrammar.Proofs.Automaton.Paths
import Mathlib.Data.List.Forall2

/-!
# Words of the three shapes

Which words the automata of the grammar notation accept: a single character accepts itself, a
keyword accepts the words that spell it letter by letter in the variants of its letters, and a name
is any non-empty word of letters and digits.

The states of a keyword are numbered in 32-bit words, so it must be shorter than there are numbers.
-/

namespace BnfGrammar
namespace Automaton

variable {a : Automaton} {s q : StateId} {c d : Char} {text : List Char} {word : String} {i : Nat}

/-! ## Tags -/

theorem tag?_empty : empty.tag? q = none :=
  rfl

theorem tag?_addEdge (a : Automaton) (source target : StateId) (label : String) (q : StateId) :
    (a.addEdge source target label).tag? q = a.tag? q :=
  rfl

theorem tag?_addState (a : Automaton) (s : StateId) (tag : StateTag) (q : StateId) :
    (a.addState s tag).tag? q = if s = q then some tag else a.tag? q := by
  simp [tag?, addState, Std.ExtTreeMap.getElem?_insert]

/-! ## Single characters -/

theorem reads_single_iff : (single c).Reads s d q ↔ s = 0 ∧ q = 1 ∧ d = c := by
  simp [Reads, single, addEdge, addState, empty, eq_comm]

theorem isAccepting_single_iff : (single c).isAccepting q = true ↔ q = 1 := by
  rw [eq_comm (b := 1)]
  by_cases hq : 1 = q <;> by_cases hstart : 0 = q <;>
    simp [isAccepting, single, tag?_addEdge, tag?_addState, tag?_empty, hq, hstart]

theorem accepts_single_iff : (single c).Accepts text ↔ text = [c] := by
  cases text with
  | nil => simp [Accepts, path_nil_iff, isAccepting_single_iff, start]
  | cons d rest =>
      have hpath : ∀ q, (single c).Path start (d :: rest) q ↔ d = c ∧ rest = [] ∧ q = 1 := by
        intro q
        cases rest with
        | nil => simp [path_cons_iff, path_nil_iff, reads_single_iff, start, eq_comm, and_comm]
        | cons e rest => simp [path_cons_iff, reads_single_iff]
      simp [Accepts, hpath, isAccepting_single_iff]

/-! ## Names -/

theorem mem_nameCharacters_iff : c ∈ nameCharacters.toList ↔ c.isAlphanum = true := by
  have hinto : nameCharacters.toList.all Char.isAlphanum = true := by
    decide +kernel
  have hfrom : ∀ code < 128, (Char.ofNat code).isAlphanum = true →
      Char.ofNat code ∈ nameCharacters.toList := by
    decide +kernel
  refine ⟨List.all_eq_true.1 hinto c, fun h => ?_⟩
  have hcode : c.toNat < 128 := by
    change ((decide (65 ≤ c.val ∧ c.val ≤ 90) || (decide (97 ≤ c.val) && decide (c.val ≤ 122))) ||
      (decide (48 ≤ c.val) && decide (c.val ≤ 57))) = true at h
    simp only [Bool.or_eq_true, Bool.and_eq_true, decide_eq_true_eq, UInt32.le_iff_toNat_le] at h
    change ((65 ≤ c.toNat ∧ c.toNat ≤ 90) ∨ (97 ≤ c.toNat ∧ c.toNat ≤ 122)) ∨
      (48 ≤ c.toNat ∧ c.toNat ≤ 57) at h
    omega
  simpa using hfrom c.toNat hcode (by simpa using h)

theorem reads_name_iff : name.Reads s c q ↔ (s = 0 ∨ s = 1) ∧ q = 1 ∧ c.isAlphanum = true := by
  have hedges : name.edges = [⟨0, 1, nameCharacters⟩, ⟨1, 1, nameCharacters⟩] := rfl
  rw [← mem_nameCharacters_iff, Reads, hedges]
  simp only [List.mem_cons, List.not_mem_nil, or_false, exists_eq_or_imp, exists_eq_left]
  rw [← or_and_right, eq_comm (b := s), eq_comm (b := s), eq_comm (b := q)]

theorem isAccepting_name_iff : name.isAccepting q = true ↔ q = 1 := by
  rw [eq_comm (b := 1)]
  by_cases hq : 1 = q <;> by_cases hstart : 0 = q <;>
    simp [isAccepting, name, tag?_addEdge, tag?_addState, tag?_empty, hq, hstart]

theorem path_name_iff : ∀ {text}, name.Path 1 text q ↔ q = 1 ∧ ∀ c ∈ text, c.isAlphanum = true := by
  intro text
  induction text with
  | nil => simp [path_nil_iff, eq_comm (a := q)]
  | cons c rest ih =>
      simp only [path_cons_iff, reads_name_iff, List.forall_mem_cons]
      constructor
      · rintro ⟨next, ⟨_, rfl, hc⟩, hrest⟩
        exact ⟨(ih.1 hrest).1, hc, (ih.1 hrest).2⟩
      · rintro ⟨hq, hc, hrest⟩
        exact ⟨1, ⟨.inr trivial, rfl, hc⟩, ih.2 ⟨hq, hrest⟩⟩

theorem accepts_name_iff : name.Accepts text ↔ text ≠ [] ∧ ∀ c ∈ text, c.isAlphanum = true := by
  cases text with
  | nil => simp [Accepts, path_nil_iff, isAccepting_name_iff, start]
  | cons c rest =>
      simp [Accepts, path_cons_iff, reads_name_iff, path_name_iff, isAccepting_name_iff, start]

/-! ## Keywords -/

/-- The label under which a keyword reads a letter. -/
def letterLabel (letter : Char) : String :=
  String.ofList (caseVariants letter)

/-- The edge of a letter at a place. -/
def letterEdge (letter : Char × Nat) : Edge :=
  ⟨UInt32.ofNat letter.2, UInt32.ofNat (letter.2 + 1), letterLabel letter.1⟩

theorem edges_keyword (word : String) :
    (keyword word).edges = word.toList.zipIdx.map letterEdge := by
  have hfold : ∀ (letters : List (Char × Nat)) (a : Automaton),
      (letters.foldl (addLetter word.length) a).edges = a.edges ++ letters.map letterEdge := by
    intro letters
    induction letters with
    | nil => simp
    | cons letter letters ih =>
        intro a
        simp [ih, addLetter, addEdge, addState, letterEdge, letterLabel]
  exact hfold _ _

/-- The states of a keyword of at most `n` letters are different. -/
theorem state_inj {n j : Nat} (hsize : n < UInt32.size) (hj : j ≤ n) (hi : i ≤ n) :
    UInt32.ofNat j = UInt32.ofNat i ↔ j = i := by
  rw [← UInt32.toNat_inj, UInt32.toNat_ofNat_of_lt' (Nat.lt_of_le_of_lt hj hsize),
    UInt32.toNat_ofNat_of_lt' (Nat.lt_of_le_of_lt hi hsize)]

/-- A letter of a keyword is read in its variants, from its place to the next. -/
theorem reads_keyword_iff (hsize : word.length < UInt32.size) (hi : i ≤ word.length) :
    (keyword word).Reads (UInt32.ofNat i) c q ↔
      ∃ letter, word.toList[i]? = some letter ∧ q = UInt32.ofNat (i + 1) ∧
        c ∈ caseVariants letter := by
  rw [Reads, edges_keyword]
  constructor
  · rintro ⟨edge, hedge, hsource, rfl, hc⟩
    rcases List.mem_map.1 hedge with ⟨⟨letter, j⟩, hletter, rfl⟩
    have hj := List.mem_zipIdx_iff_getElem?.1 hletter
    have hless : j < word.length :=
      String.length_toList ▸ (List.getElem?_eq_some_iff.1 hj).1
    obtain rfl := (state_inj hsize (Nat.le_of_lt hless) hi).1 hsource
    exact ⟨letter, hj, rfl, by simpa [letterEdge, letterLabel] using hc⟩
  · rintro ⟨letter, hletter, rfl, hc⟩
    have hmem : (letter, i) ∈ word.toList.zipIdx := List.mem_zipIdx_iff_getElem?.2 hletter
    exact ⟨_, List.mem_map.2 ⟨_, hmem, rfl⟩, rfl, rfl, by simpa [letterEdge, letterLabel] using hc⟩

/-- The letters of a keyword are read one after the other. -/
theorem path_keyword_iff (hsize : word.length < UInt32.size) :
    ∀ {text i}, i ≤ word.length → ((keyword word).Path (UInt32.ofNat i) text q ↔
      ∃ spelled rest, word.toList.drop i = spelled ++ rest ∧ q = UInt32.ofNat (i + text.length) ∧
        List.Forall₂ (fun c letter => c ∈ caseVariants letter) text spelled) := by
  intro text
  induction text with
  | nil =>
      intro i _
      simp [path_nil_iff, eq_comm (a := q)]
  | cons c text ih =>
      intro i hi
      have hlength : i + (c :: text).length = i + 1 + text.length := by
        simp only [List.length_cons]
        omega
      simp only [path_cons_iff, reads_keyword_iff hsize hi, hlength]
      constructor
      · rintro ⟨next, ⟨letter, hletter, rfl, hc⟩, hpath⟩
        rcases List.getElem?_eq_some_iff.1 hletter with ⟨hless, rfl⟩
        have hmore : i + 1 ≤ word.length := String.length_toList ▸ hless
        rcases (ih hmore).1 hpath with ⟨spelled, rest, hsplit, hq, hspelled⟩
        refine ⟨_ :: spelled, rest, ?_, hq, .cons hc hspelled⟩
        rw [List.drop_eq_getElem_cons hless, hsplit, List.cons_append]
      · rintro ⟨spelled, rest, hsplit, hq, hspelled⟩
        cases hspelled with
        | cons hc hspelled =>
            have hletter := congrArg (·[0]?) hsplit
            have hrest := congrArg List.tail hsplit
            simp only [List.getElem?_drop, Nat.add_zero, List.cons_append, List.getElem?_cons_zero,
              List.tail_drop, List.tail_cons] at hletter hrest
            have hmore : i + 1 ≤ word.length :=
              String.length_toList ▸ (List.getElem?_eq_some_iff.1 hletter).1
            exact ⟨_, ⟨_, hletter, rfl, hc⟩, (ih hmore).2 ⟨_, rest, hrest, hq, hspelled⟩⟩

/-- The tags that the letters from one place on give to the states behind them. -/
theorem tag?_foldl_addLetter {n : Nat} (hsize : n < UInt32.size) (hi : i ≤ n) :
    ∀ (letters : List Char) (k : Nat) (a : Automaton), k + letters.length ≤ n →
      ((letters.zipIdx k).foldl (addLetter n) a).tag? (UInt32.ofNat i) =
        if k < i ∧ i ≤ k + letters.length then
          some (if i = n then .accepting else .passing)
        else a.tag? (UInt32.ofNat i) := by
  intro letters
  induction letters with
  | nil =>
      intro k a _
      have hnone : ¬ (k < i ∧ i ≤ k + ([] : List Char).length) := by
        simp only [List.length_nil]
        omega
      rw [if_neg hnone]
      rfl
  | cons letter letters ih =>
      intro k a hk
      simp only [List.length_cons] at hk ⊢
      have hplace : UInt32.ofNat (k + 1) = UInt32.ofNat i ↔ k + 1 = i :=
        state_inj hsize (by omega) hi
      rw [List.zipIdx_cons, List.foldl_cons, ih (k + 1) _ (by omega), addLetter, tag?_addEdge,
        tag?_addState]
      simp only [hplace]
      -- The state is that of this letter, one before it or one behind it.
      rcases Nat.lt_trichotomy i (k + 1) with hbefore | rfl | hafter
      · simp [Nat.not_lt.2 (Nat.le_of_lt_succ hbefore), Nat.lt_asymm hbefore, Nat.ne_of_gt hbefore]
      · simp
      · simp [hafter, Nat.lt_of_succ_lt hafter, Nat.ne_of_lt hafter, Nat.add_assoc, Nat.add_comm 1]

/-- A keyword may end only where all of its letters have been read. -/
theorem isAccepting_keyword_iff (hsize : word.length < UInt32.size) (hi : i ≤ word.length) :
    (keyword word).isAccepting (UInt32.ofNat i) = true ↔ i = word.length ∧ i ≠ 0 := by
  have hletters : 0 + word.toList.length ≤ word.length := by
    rw [String.length_toList]
    omega
  have htag : (keyword word).tag? (UInt32.ofNat i) =
      if 0 < i ∧ i ≤ 0 + word.toList.length then
        some (if i = word.length then .accepting else .passing)
      else (empty.addState start .passing).tag? (UInt32.ofNat i) :=
    tag?_foldl_addLetter hsize hi _ _ _ hletters
  have hlast : i ≤ 0 + word.toList.length := by
    rw [Nat.zero_add, String.length_toList]
    exact hi
  rw [isAccepting, htag]
  rcases Nat.eq_zero_or_pos i with rfl | hpositive
  · simp [tag?_addState, start]
  · rw [if_pos ⟨hpositive, hlast⟩]
    by_cases hend : i = word.length
    · rw [if_pos hend]
      exact iff_of_true (by simp) ⟨hend, Nat.ne_of_gt hpositive⟩
    · rw [if_neg hend]
      exact iff_of_false (by simp) fun h => hend h.1

/-- A keyword is spelled letter by letter, each letter in one of its variants. -/
theorem accepts_keyword_iff (hsize : word.length < UInt32.size) (hword : word ≠ "") :
    (keyword word).Accepts text ↔
      List.Forall₂ (fun c letter => c ∈ caseVariants letter) text word.toList := by
  have hpath : ∀ q, (keyword word).Path start text q ↔
      ∃ spelled rest, word.toList = spelled ++ rest ∧ q = UInt32.ofNat text.length ∧
        List.Forall₂ (fun c letter => c ∈ caseVariants letter) text spelled := by
    intro q
    simpa [start] using path_keyword_iff (q := q) hsize (Nat.zero_le _)
  constructor
  · rintro ⟨q, hreads, haccepting⟩
    rcases (hpath q).1 hreads with ⟨spelled, rest, hsplit, rfl, hspelled⟩
    have hlength : text.length + rest.length = word.length := by
      rw [hspelled.length_eq, ← List.length_append, ← hsplit, String.length_toList]
    have hall := ((isAccepting_keyword_iff hsize (by omega)).1 haccepting).1
    obtain rfl : rest = [] := List.eq_nil_of_length_eq_zero (by omega)
    rw [hsplit, List.append_nil]
    exact hspelled
  · intro h
    have hlength : text.length = word.length := by
      rw [h.length_eq, String.length_toList]
    have hne : text.length ≠ 0 := by
      rw [hlength]
      simpa using hword
    exact ⟨_, (hpath _).2 ⟨word.toList, [], (List.append_nil _).symm, rfl, h⟩,
      (isAccepting_keyword_iff hsize (Nat.le_of_eq hlength)).2 ⟨hlength, hne⟩⟩

end Automaton
end BnfGrammar
