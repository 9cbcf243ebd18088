import BnfGrammar.Proofs.Sample.Written
import BnfGrammar.Sample.Draw
import Std.Data.String.ToNat

/-!
# What is drawn as a sample

Whatever a chooser answers, a sample grammar is sound: its gaps, keywords and names come from the
stock, and a gap that has to be there is there. So its text is read back as what was drawn. The
property of a draw is found by going through its parts: `Always` says that a value has a property
whatever the state is, and there is one lemma for each way to put draws together and one for each
part of a grammar.
-/

namespace BnfGrammar
namespace Sample

/-! ## Draws -/

section

variable {σ α β ι : Type} {draw : StateM σ α} {P : α → Prop}

/-- A drawn value has a property, whatever the state is that it is drawn from. -/
def Always (draw : StateM σ α) (P : α → Prop) : Prop :=
  ∀ state, P (draw state).1

theorem always_true (draw : StateM σ α) : Always draw fun _ => True :=
  fun _ => trivial

namespace Always

theorem pure {a : α} (h : P a) : Always (Pure.pure a : StateM σ α) P :=
  fun _ => h

theorem bind {after : α → StateM σ β} {Q : β → Prop} (h : Always draw P)
    (hafter : ∀ a, P a → Always (after a) Q) : Always (draw >>= after) Q :=
  fun state => hafter _ (h state) _

theorem ite {c : Prop} [Decidable c] {other : StateM σ α} (h : Always draw P)
    (hother : Always other P) : Always (if c then draw else other) P := by
  by_cases hc : c
  · rwa [if_pos hc]
  · rwa [if_neg hc]

theorem mapM {draw : ι → StateM σ α} {P : ι → α → Prop} (h : ∀ i, Always (draw i) (P i))
    (items : List ι) : Always (items.mapM draw) (List.Forall₂ P items) := by
  induction items with
  | nil => exact .pure .nil
  | cons i items ih =>
      rw [List.mapM_cons]
      refine (h i).bind fun a ha => ih.bind fun later hlater => ?_
      exact .pure (.cons ha hlater)

end Always
end

/-! ## Stock -/

section

variable {σ : Type} (choose : Chooser σ) (last : Nat)

theorem always_pickFrom {items : List String} (h : items ≠ []) :
    Always (pickFrom choose items h) (· ∈ items) :=
  fun _ => List.getElem_mem _

theorem always_gap : Always (gap choose) fun gap => Blank gap.toList ∧ gap ≠ "" := by
  have hgaps : ∀ gap ∈ gaps, Blank gap.toList ∧ gap ≠ "" := by
    decide
  exact fun state => hgaps _ (always_pickFrom choose _ state)

theorem always_optionalGap : Always (optionalGap choose) fun gap => Blank gap.toList := by
  refine (always_true _).bind fun _ _ => .ite ?_ (.pure (by decide))
  exact fun state => (always_gap choose state).1

/-- The left-hand side with a number. -/
def nonterminal (number : Nat) : String :=
  s!"N{number}"

/-- The terminal with a number. -/
def terminal (number : Nat) : String :=
  s!"t{number}"

/-- The names that a grammar is drawn from whose last left-hand side has the number `last`. -/
def InStock (name : String) : Prop :=
  (∃ i ≤ last, name = nonterminal i) ∨ ∃ i ≤ last + 3, name = terminal i

theorem always_name : Always (name choose last) (InStock last) := by
  refine (always_true _).bind fun _ _ => .ite ?_ ?_
  · exact (always_true _).bind fun i _ => .pure (.inl ⟨i, Nat.le_of_lt_succ i.isLt, rfl⟩)
  · exact (always_true _).bind fun i _ => .pure (.inr ⟨i, Nat.le_of_lt_succ i.isLt, rfl⟩)

/-! ## Alternatives -/

theorem always_furtherNames (n : Nat) :
    Always (furtherNames choose last n) fun items => items.length = n ∧
      ∀ item ∈ items, (Blank item.1.toList ∧ item.1 ≠ "") ∧ InStock last item.2 := by
  induction n with
  | zero => exact .pure (by simp)
  | succ n ih =>
      refine (always_gap choose).bind fun gap hgap => (always_name choose last).bind
        fun name hname => ih.bind fun items hitems => .pure ?_
      exact ⟨congrArg Nat.succ hitems.1, List.forall_mem_cons.2 ⟨⟨hgap, hname⟩, hitems.2⟩⟩

/-- An alternative is sound and has at most four names, all of them from the stock. -/
structure DrawnAlternative (alternative : Spaced.Alternative) : Prop where
  sound : alternative.Sound
  length_le : alternative.symbols.length ≤ 4
  inStock : ∀ name ∈ alternative.symbols, InStock last name

theorem always_alternative : Always (alternative choose last) (DrawnAlternative last) := by
  have hkeywords : ∀ keyword ∈ keywords, spellsEpsilon keyword.toList = true := by
    decide
  -- A coin decides between the keyword and names.
  refine (always_optionalGap choose).bind fun gap hgap => (always_true _).bind fun _ _ => .ite ?_ ?_
  · refine (always_pickFrom choose _).bind fun keyword hkeyword => .pure ?_
    exact ⟨.vanishing hgap (hkeywords keyword hkeyword), Nat.zero_le 4, by
      simp [Spaced.Alternative.symbols]⟩
  · refine (always_true _).bind fun further _ => (always_name choose last).bind fun name hname =>
      (always_furtherNames choose last further).bind fun items hitems => .pure ?_
    rcases hitems with ⟨hlength, hitems⟩
    refine ⟨.names hgap fun item hitem => (hitems item hitem).1, ?_, ?_⟩
    · simp only [Spaced.Alternative.symbols, List.length_map, List.length_cons]
      omega
    · simp only [Spaced.Alternative.symbols, List.map_cons, List.forall_mem_cons,
        List.forall_mem_map]
      exact ⟨hname, fun item hitem => (hitems item hitem).2⟩

theorem always_furtherAlternatives (n : Nat) :
    Always (furtherAlternatives choose last n) fun others => others.length = n ∧
      ∀ other ∈ others, Blank other.1.toList ∧ DrawnAlternative last other.2 := by
  induction n with
  | zero => exact .pure (by simp)
  | succ n ih =>
      refine (always_optionalGap choose).bind fun gap hgap => (always_alternative choose last).bind
        fun alternative halternative => ih.bind fun others hothers => .pure ?_
      exact ⟨congrArg Nat.succ hothers.1,
        List.forall_mem_cons.2 ⟨⟨hgap, halternative⟩, hothers.2⟩⟩

/-! ## Grammars -/

/-- A production set is sound and has the left-hand side with a number and at most three
alternatives. -/
structure DrawnSet (number : Nat) (set : Spaced.ProductionSet) : Prop where
  sound : set.Sound
  lhs_eq : set.lhs = nonterminal number
  length_le : set.sides.length ≤ 3
  drawn : ∀ side ∈ set.sides, DrawnAlternative last side

theorem always_productionSet (number : Nat) :
    Always (productionSet choose last number) (DrawnSet last number) := by
  refine (always_optionalGap choose).bind fun gap hgap => (always_optionalGap choose).bind
    fun colonGap hcolonGap => (always_true _).bind fun further _ =>
    (always_alternative choose last).bind fun first hfirst =>
    (always_furtherAlternatives choose last further).bind fun others hothers =>
    (always_optionalGap choose).bind fun stopGap hstopGap => .pure ?_
  rcases hothers with ⟨hlength, hothers⟩
  refine ⟨⟨hgap, hcolonGap, hfirst.sound, ?_, hstopGap⟩, rfl, ?_, ?_⟩
  · exact fun other hother => ⟨(hothers other hother).1, (hothers other hother).2.sound⟩
  · simp only [Spaced.ProductionSet.sides, List.length_cons, List.length_map]
    omega
  · simp only [Spaced.ProductionSet.sides, List.forall_mem_cons, List.forall_mem_map]
    exact ⟨hfirst, fun other hother => (hothers other hother).2⟩

/-- A grammar has the left-hand sides with the numbers up to `last` in order, and ends in blanks. -/
structure DrawnGrammar (g : Spaced.Grammar) : Prop where
  sets : List.Forall₂ (DrawnSet last) (List.range (last + 1)) g.sets
  lastGap : Blank g.lastGap.toList

theorem always_grammar (n : Nat) : Always (grammar choose n) (DrawnGrammar (n - 1)) := by
  refine (Always.mapM (always_productionSet choose (n - 1)) _).bind fun sets hsets =>
    (always_optionalGap choose).bind fun lastGap hlastGap => .pure ?_
  exact ⟨hsets, hlastGap⟩

end

/-! ## Names -/

/-- A letter with the digits of a number behind it. -/
theorem toList_numbered (letter : Char) (i : Nat) :
    (String.singleton letter ++ toString i).toList = letter :: Nat.toDigits 10 i := by
  have hdigits : toString i = String.ofList (Nat.toDigits 10 i) := Nat.repr_eq_ofList_toDigits
  rw [hdigits]
  simp

theorem isName_numbered (letter : Char) (hletter : letter.isAlphanum = true)
    (hlower : letter.toLower ≠ 'e') (i : Nat) :
    IsName (String.singleton letter ++ toString i) where
  ne_empty := by
    intro hempty
    have hlist := congrArg String.toList hempty
    rw [toList_numbered] at hlist
    cases hlist
  letters := by
    rw [toList_numbered]
    refine List.forall_mem_cons.2 ⟨hletter, fun c hc => ?_⟩
    have hdigit : c.isDigit = true := Nat.isDigit_of_mem_toDigits (by decide) (by decide) hc
    simp [Char.isAlphanum, hdigit]
  not_epsilon := by
    rw [toList_numbered]
    have hfirst : (letter :: Nat.toDigits 10 i).take 7 = letter :: (Nat.toDigits 10 i).take 6 := rfl
    rw [hfirst, spellsEpsilon]
    refine decide_eq_false fun hspells => hlower ?_
    exact (List.cons.inj hspells).1

theorem isName_nonterminal (i : Nat) : IsName (nonterminal i) :=
  isName_numbered 'N' (by decide) (by decide) i

theorem isName_terminal (i : Nat) : IsName (terminal i) :=
  isName_numbered 't' (by decide) (by decide) i

theorem nonterminal_inj {i j : Nat} (h : nonterminal i = nonterminal j) : i = j := by
  have hlist : (String.singleton 'N' ++ toString i).toList =
      (String.singleton 'N' ++ toString j).toList :=
    congrArg String.toList h
  rw [toList_numbered, toList_numbered] at hlist
  refine Nat.repr_inj.1 ?_
  rw [Nat.repr_eq_ofList_toDigits, Nat.repr_eq_ofList_toDigits, List.tail_eq_of_cons_eq hlist]

variable {last number : Nat} {g : Spaced.Grammar} {set : Spaced.ProductionSet}

theorem InStock.isName {name : String} (h : InStock last name) : IsName name := by
  rcases h with ⟨i, _, rfl⟩ | ⟨i, _, rfl⟩
  · exact isName_nonterminal i
  · exact isName_terminal i

/-! ## What a drawn grammar says -/

/-- A production set with a left-hand side, one to three alternatives and at most four names from
the stock in each. -/
structure Moderate (last : Nat) (set : ProductionSet) : Prop where
  isName : IsName set.1
  pos : 1 ≤ set.2.length
  length_le : set.2.length ≤ 3
  small : ∀ alternative ∈ set.2, alternative.length ≤ 4 ∧ ∀ name ∈ alternative, InStock last name

theorem DrawnSet.moderate (h : DrawnSet last number set) : Moderate last set.content where
  isName := by
    rw [Spaced.ProductionSet.content, h.lhs_eq]
    exact isName_nonterminal number
  pos := by simp [Spaced.ProductionSet.content, Spaced.ProductionSet.sides]
  length_le := by simpa [Spaced.ProductionSet.content] using h.length_le
  small := by
    simp only [Spaced.ProductionSet.content, List.forall_mem_map]
    exact fun side hside => ⟨(h.drawn side hside).length_le, (h.drawn side hside).inStock⟩

namespace DrawnGrammar

theorem exists_drawnSet (h : DrawnGrammar last g) (hset : set ∈ g.sets) :
    ∃ number, DrawnSet last number set := by
  rcases List.mem_iff_getElem.1 hset with ⟨i, hi, rfl⟩
  exact ⟨_, h.sets.get (h.sets.length_eq.symm ▸ hi) hi⟩

theorem sound (h : DrawnGrammar last g) : g.Sound where
  sets := fun _ hset => (h.exists_drawnSet hset).elim fun _ hdrawn => hdrawn.sound
  lastGap := h.lastGap

theorem moderate (h : DrawnGrammar last g) : ∀ set ∈ g.content, Moderate last set :=
  List.forall_mem_map.2 fun _ hset => (h.exists_drawnSet hset).elim fun _ hdrawn => hdrawn.moderate

theorem heads_eq (h : DrawnGrammar last g) :
    g.content.map Prod.fst = (List.range (last + 1)).map nonterminal := by
  have hheads : List.Forall₂ (· = ·) ((List.range (last + 1)).map nonterminal)
      (g.content.map Prod.fst) := by
    rw [Spaced.Grammar.content, List.map_map, List.forall₂_map_left_iff, List.forall₂_map_right_iff]
    exact h.sets.imp fun _ _ hdrawn => hdrawn.lhs_eq.symm
  exact (List.forall₂_eq_eq_eq ▸ hheads).symm

theorem nodup_heads (h : DrawnGrammar last g) : (g.content.map Prod.fst).Nodup := by
  rw [h.heads_eq]
  exact List.nodup_range.map fun _ _ => nonterminal_inj

theorem namesOf (h : DrawnGrammar last g) : NamesOf g.content :=
  fun set hset => ⟨(h.moderate set hset).isName, fun alternative halternative name hname =>
    (((h.moderate set hset).small alternative halternative).2 name hname).isName⟩

theorem content_ne_nil (h : DrawnGrammar last g) : g.content ≠ [] := by
  intro hnil
  have hheads := h.heads_eq
  rw [hnil, List.range_succ] at hheads
  simp at hheads

/-- The grammar of a drawn text has the production sets that were drawn. Its terminals are from the
stock. -/
theorem gathers (h : DrawnGrammar last g) {grammar : Grammar}
    (hgathers : grammar.Gathers g.content) :
    grammar.nonterminals.toList = (List.range (last + 1)).map nonterminal ∧
      grammar.productions.toList = g.content ∧ grammar.goal? = some (nonterminal 0) ∧
      ∀ name ∈ grammar.terminals, ∃ i ≤ last + 3, name = terminal i := by
  rcases hgathers.toList_eq_of_nodup h.nodup_heads with ⟨hnonterminals, hproductions⟩
  refine ⟨hnonterminals.trans h.heads_eq, hproductions, ?_, ?_⟩
  · have hgoal := congrArg List.head? h.heads_eq
    rw [List.head?_map] at hgoal
    rw [hgathers.goal?_eq, hgoal, List.range_succ_eq_map]
    rfl
  · intro name hname
    rw [ArrivalSet.mem_def, hgathers.terminals_eq, List.mem_filter, List.mem_eraseDups,
      List.mem_flatMap] at hname
    rcases hname with ⟨⟨set, hset, hmem⟩, hnohead⟩
    rcases List.mem_flatten.1 hmem with ⟨alternative, halternative, hname⟩
    -- A name from the stock that is no left-hand side is a terminal.
    rcases ((h.moderate set hset).small alternative halternative).2 name hname with
      ⟨i, hi, rfl⟩ | hterminal
    · refine absurd ?_ (of_decide_eq_true hnohead)
      rw [h.heads_eq]
      exact List.mem_map_of_mem (List.mem_range.2 (Nat.lt_succ_of_le hi))
    · exact hterminal

end DrawnGrammar
end Sample
end BnfGrammar
