import BnfGrammar.Proofs.Table.Match
import Mathlib.Logic.Relation
import Mathlib.Order.Bounds.Basic

/-!
# Longest matches by rolling back

`Table.match?` decides about a character when it knows what follows it. A search that only looks at
one character at a time reads on as long as there is a step, and keeps the states that it leaves on
a stack. The stack is emptied whenever an accepting state is left, since nothing before that state
will be needed. When the reading is over, states are taken off the stack, and the position goes back
with them, until an accepting state is found behind the start.

This file shows that rolling back recovers the longest match in every case: whether the reading ends
with the text or with an undefined step, and also if the start accepts or is met again. Nothing is
assumed about how the fields of a table fit together.
-/

namespace BnfGrammar
namespace Table

/-! ## The search -/

/-- Where a search stands. -/
structure Search where
  /-- The state at the position, unless the step to it was undefined. -/
  state : Option StateId
  /-- The states before it, latest first, back to the last accepting one. -/
  left : List StateId
  position : Nat
  deriving DecidableEq

namespace Search

/-- Reads a character at a state. -/
def read (t : Table) (x : Search) (s : StateId) (c : Char) : Search where
  state := t.step s c
  left := s :: if t.isAccepting s then [] else x.left
  position := x.position + 1

/-- Reads on until the text or the steps end. -/
def advance (t : Table) : List Char → Search → Search
  | [], x => x
  | c :: text, x =>
      match x.state with
      | none => x
      | some s => advance t text (x.read t s c)

/-- Goes back to the state that was left last. -/
def back? (x : Search) : Option Search :=
  match x.left with
  | [] => none
  | s :: left => some ⟨some s, left, x.position - 1⟩

/-- The accepting state at which a word ends that began at `start`. -/
def ending? (t : Table) (start : Nat) (x : Search) : Option StateId :=
  x.state.filter fun s => t.isAccepting s && decide (start < x.position)

theorem length_left_lt {x y : Search} (h : x.back? = some y) :
    y.left.length < x.left.length := by
  rcases x with ⟨state, _ | ⟨s, left⟩, position⟩
  · cases h
  · cases h
    exact Nat.lt_succ_self left.length

/-- Goes back to the first place where a word ends, and gives this place and the kind of the
word. -/
def unwind (t : Table) (start : Nat) (x : Search) : Option (Nat × TokenKind) :=
  match x.ending? t start with
  | some s => (t.tokenAt s).map (x.position, ·)
  | none =>
      match _hback : x.back? with
      | none => none
      | some y => unwind t start y
termination_by x.left.length
decreasing_by exact length_left_lt _hback

end Search

/-- Where the reading of an input from a position ends. -/
def reading (t : Table) (input : List Char) (start : Nat) : Search :=
  Search.advance t (input.drop start) ⟨some Automaton.start, [], start⟩

/-- The end and the kind of the word that begins at a position of an input. -/
def munch (t : Table) (input : List Char) (start : Nat) : Option (Nat × TokenKind) :=
  (t.reading input start).unwind t start

namespace Search

variable {t : Table} {start : Nat} {x y : Search} {s : StateId}

/-! ## Room for going back -/

/-- The position is at least as many characters behind the start as there are states to go back
to. -/
def Room (start : Nat) (x : Search) : Prop :=
  start + x.left.length ≤ x.position

namespace Room

theorem read (h : x.Room start) (s : StateId) (c : Char) : (x.read t s c).Room start := by
  have hleft : (x.read t s c).left.length ≤ x.left.length + 1 := by
    by_cases haccepting : t.isAccepting s = true <;> simp [Search.read, haccepting]
  have hposition : (x.read t s c).position = x.position + 1 := rfl
  unfold Room at h ⊢
  omega

theorem advance (text : List Char) : ∀ {x : Search}, x.Room start →
    (advance t text x).Room start := by
  induction text with
  | nil => exact id
  | cons c text ih =>
      intro x h
      cases hstate : x.state with
      | none => simpa [Search.advance, hstate] using h
      | some s => simpa [Search.advance, hstate] using ih (h.read s c)

/-- A step back goes to the position before, which is not before the start. -/
theorem back (h : x.Room start) (hback : x.back? = some y) :
    y.position + 1 = x.position ∧ y.Room start := by
  rcases x with ⟨state, _ | ⟨s, left⟩, position⟩
  · cases hback
  · cases hback
    simp only [Room, List.length_cons] at h ⊢
    omega

end Room

/-- The places that a search comes to when it goes back. -/
def GoesBackTo : Search → Search → Prop :=
  Relation.ReflTransGen fun x y => x.back? = some y

theorem Room.goesBackTo (h : x.Room start) (hback : x.GoesBackTo y) : y.Room start := by
  induction hback with
  | refl => exact h
  | tail _ hstep ih => exact (ih.back hstep).2

/-! ## What rolling back finds -/

theorem unwind_of_ending (h : x.ending? t start = some s) :
    x.unwind t start = (t.tokenAt s).map (x.position, ·) := by
  rw [unwind, h]

theorem unwind_of_no_ending (h : x.ending? t start = none) :
    x.unwind t start = x.back?.bind (unwind t start) := by
  rw [unwind, h]
  cases hback : x.back? with
  | none => rfl
  | some y => rfl

/-- Where no word ends behind a character, rolling back gives what it gave before the character was
read. -/
theorem unwind_read (hroom : x.Room start) (hstate : x.state = some s) {c : Char}
    (h : (x.read t s c).ending? t start = none) :
    (x.read t s c).unwind t start = x.unwind t start := by
  rcases x with ⟨_, left, position⟩
  cases hstate
  rw [unwind_of_no_ending h]
  by_cases haccepting : t.isAccepting s = true
  · -- The states below an accepting one were dropped.
    have hback : (read t ⟨some s, left, position⟩ s c).back? = some ⟨some s, [], position⟩ := by
      simp [read, back?, haccepting]
    rw [hback, Option.bind_some]
    by_cases hposition : start < position
    · -- A word ends at the accepting state, so they are not needed.
      have hending : ∀ left, ending? t start ⟨some s, left, position⟩ = some s := by
        intro left
        simp [ending?, haccepting, hposition]
      rw [unwind_of_ending (hending []), unwind_of_ending (hending left)]
    · -- The accepting state is at the start, and there were none below it.
      have hnone : left = [] := by
        apply List.length_eq_zero_iff.1
        simp only [Room] at hroom
        omega
      rw [hnone]
  · simp [read, back?, haccepting]

/-- Reading on and rolling back finds the end of the longest word behind the present position, and
without one gives what rolling back gives at once. -/
theorem unwind_advance (text : List Char) : ∀ {x : Search} {s : StateId}, x.Room start →
    x.state = some s →
      (advance t text x).unwind t start =
        match t.longest s text with
        | some (n, last) => (t.tokenAt last).map (x.position + n, ·)
        | none => x.unwind t start := by
  induction text with
  | nil =>
      intro x s _ _
      rfl
  | cons c text ih =>
      intro x s hroom hstate
      have hread : advance t (c :: text) x = advance t text (x.read t s c) := by
        rw [advance, hstate]
      rw [hread]
      cases hstep : t.step s c with
      | none =>
          -- The reading ends behind a character without a step.
          have hdead : (x.read t s c).state = none := hstep
          have hstop : advance t text (x.read t s c) = x.read t s c := by
            cases text with
            | nil => rfl
            | cons d text => rw [advance, hdead]
          have hending : (x.read t s c).ending? t start = none := by
            simp [ending?, hdead]
          rw [hstop, unwind_read hroom hstate hending]
          simp [longest, hstep]
      | some next =>
          have hlive : (x.read t s c).state = some next := hstep
          have hposition : (x.read t s c).position = x.position + 1 := rfl
          rw [ih (hroom.read s c) hlive]
          cases hlater : t.longest next text with
          | some found => simp [longest, hstep, hlater, hposition, Nat.add_assoc, Nat.add_comm 1]
          | none =>
              by_cases haccepting : t.isAccepting next = true
              · have hbehind : start < x.position + 1 := by
                  unfold Room at hroom
                  omega
                have hending : (x.read t s c).ending? t start = some next := by
                  simp [ending?, hlive, haccepting, hposition, hbehind]
                simp [longest, hstep, hlater, haccepting, unwind_of_ending hending, hposition]
              · have hending : (x.read t s c).ending? t start = none := by
                  simp [ending?, hlive, haccepting]
                simp [longest, hstep, hlater, haccepting, unwind_read hroom hstate hending]

end Search

/-! ## Longest matches -/

variable {t : Table} {input : List Char} {start e : Nat}

theorem room_reading (t : Table) (input : List Char) (start : Nat) :
    (t.reading input start).Room start :=
  Search.Room.advance _ (Nat.le_refl start)

/-- Rolling back gives the end and the kind of the longest accepted beginning. -/
theorem munch_eq_bind (t : Table) (input : List Char) (start : Nat) :
    t.munch input start = (t.longest Automaton.start (input.drop start)).bind fun found =>
      (t.tokenAt found.2).map (start + found.1, ·) := by
  have hroom : Search.Room start ⟨some Automaton.start, [], start⟩ := Nat.le_refl start
  have hending : Search.ending? t start ⟨some Automaton.start, [], start⟩ = none := by
    simp [Search.ending?]
  have hnothing : Search.unwind t start ⟨some Automaton.start, [], start⟩ = none :=
    Search.unwind_of_no_ending hending
  rw [munch, reading, Search.unwind_advance _ hroom rfl, hnothing]
  cases t.longest Automaton.start (input.drop start) with
  | none => rfl
  | some found => rfl

/-- A search by rolling back finds the matches that scanners use. -/
theorem munch_eq_map_match? (t : Table) (input : List Char) (start : Nat) :
    t.munch input start =
      (t.match? (input.drop start)).map fun found => (start + found.1, found.2) := by
  rw [munch_eq_bind, match?]
  cases t.longest Automaton.start (input.drop start) with
  | none => rfl
  | some found =>
      rcases found with ⟨n, last⟩
      cases htoken : t.tokenAt last with
      | none => simp [htoken]
      | some kind => simp [htoken]

/-- The positions of an input at which words end that begin at `start` and are not empty: the table
runs over what stands in between and comes to an accepting state. -/
def wordEnds (t : Table) (input : List Char) (start : Nat) : Set Nat :=
  {e | start < e ∧ e ≤ input.length ∧ t.Accepts (input.extract start e)}

theorem extract_of_begins {word : List Char} (h : word <+: input.drop start) :
    input.extract start (start + word.length) = word := by
  rw [List.extract_eq_take_drop, Nat.add_sub_cancel_left]
  exact (List.prefix_iff_eq_take.1 h).symm

theorem mem_wordEnds_iff : e ∈ t.wordEnds input start ↔
    ∃ word, word <+: input.drop start ∧ word ≠ [] ∧ t.Accepts word ∧ start + word.length = e := by
  constructor
  · rintro ⟨hlt, hle, haccepts⟩
    have hlength : (input.extract start e).length = e - start := by
      simp only [List.extract_eq_take_drop, List.length_take, List.length_drop]
      omega
    refine ⟨input.extract start e, ?_, ?_, haccepts, ?_⟩
    · rw [List.extract_eq_take_drop]
      exact List.take_prefix _ _
    · apply List.ne_nil_of_length_pos
      omega
    · omega
  · rintro ⟨word, hbegins, hne, haccepts, rfl⟩
    have hpositive : 0 < word.length := List.length_pos_iff.2 hne
    have hlength : word.length ≤ input.length - start := by
      simpa using hbegins.length_le
    refine ⟨by omega, by omega, ?_⟩
    rwa [extract_of_begins hbegins]

/-- A search by rolling back, from any position of any input and with any table, gives nothing if no
word of the table ends behind the position. Otherwise it gives the last position where one ends,
with the kind of the state there, and nothing if that state has no kind. Scanners find the same.
Going back moves the position by one at a time and never to a place before the start. -/
theorem munch_eq_last_end (t : Table) (input : List Char) (start : Nat) :
    (t.wordEnds input start = ∅ ∧ t.munch input start = none ∨
      ∃ e s, IsGreatest (t.wordEnds input start) e ∧
        t.run Automaton.start (input.extract start e) = some s ∧
        t.munch input start = (t.tokenAt s).map (e, ·)) ∧
    t.munch input start =
      (t.match? (input.drop start)).map (fun found => (start + found.1, found.2)) ∧
    ∀ x, (t.reading input start).GoesBackTo x →
      start ≤ x.position ∧ ∀ y, x.back? = some y → y.position + 1 = x.position := by
  refine ⟨?_, munch_eq_map_match? t input start, ?_⟩
  · cases hlongest : t.longest Automaton.start (input.drop start) with
    | none =>
        refine Or.inl ⟨?_, ?_⟩
        · rw [Set.eq_empty_iff_forall_notMem]
          intro e he
          rcases mem_wordEnds_iff.1 he with ⟨word, hbegins, hne, haccepts, _⟩
          exact not_acceptsFrom_of_longest hlongest word hbegins hne haccepts
        · rw [munch_eq_bind, hlongest]
          rfl
    | some found =>
        rcases found with ⟨n, last⟩
        rcases longest_eq_some hlongest with ⟨⟨word, hbegins, hne, rfl, hrun, haccepting⟩, hbound⟩
        refine Or.inr ⟨start + word.length, last, ⟨?_, ?_⟩, ?_, ?_⟩
        · exact mem_wordEnds_iff.2 ⟨word, hbegins, hne, ⟨last, hrun, haccepting⟩, rfl⟩
        · intro e he
          rcases mem_wordEnds_iff.1 he with ⟨longer, hlonger, _, haccepts, rfl⟩
          exact Nat.add_le_add_left (hbound longer hlonger haccepts) start
        · rw [extract_of_begins hbegins, hrun]
        · rw [munch_eq_bind, hlongest]
          rfl
  · intro x hx
    have hroom : x.Room start := (room_reading t input start).goesBackTo hx
    refine ⟨?_, fun y hback => (hroom.back hback).1⟩
    unfold Search.Room at hroom
    omega

/-- The words `ab`, `abab` and so on, whose table accepts at the start and comes back to it. -/
def looping : Table where
  kind := .symbol
  classOfChar := .ofList ([('a', 0), ('b', 1)] : List (Char × ClassId))
  transitions := .ofList ([((0, 0), 1), ((1, 1), 0)] : List ((ClassId × StateId) × StateId)) _
  tokenOf := .ofList ([(0, .symbol)] : List (StateId × TokenKind))
  accepting := .ofList ([0] : List StateId)
  legal := .ofList ([0, 1] : List StateId)
  classCount := 2

/-- The reading of `xabax` from the `a` ends behind the second `x`, and the search goes back to the
place behind the `b`. -/
theorem munch_eq_last_end_looping :
    looping.munch "xabax".toList 1 = some (3, .symbol) ∧
      (looping.reading "xabax".toList 1).GoesBackTo ⟨some 0, [], 3⟩ ∧ 1 ≤ 3 := by
  rcases munch_eq_last_end looping "xabax".toList 1 with ⟨_, hmatch, hback⟩
  have hreading : (looping.reading "xabax".toList 1).back? = some ⟨some 1, [0], 4⟩ := by decide
  have hgoes : (looping.reading "xabax".toList 1).GoesBackTo ⟨some 0, [], 3⟩ :=
    .head hreading (.single rfl)
  have hfound : looping.match? ("xabax".toList.drop 1) = some (2, .symbol) := by decide
  refine ⟨?_, hgoes, (hback _ hgoes).1⟩
  rw [hmatch, hfound]
  rfl

end Table
end BnfGrammar
