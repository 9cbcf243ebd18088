import BnfGrammar.Grammar.Basic
import BnfGrammar.Proofs.Collections
import Mathlib.Logic.Relation

/-!
# Derivations

Productions read as a context-free grammar. A form is a list of names. In one step of a derivation
some occurrence of a left-hand side makes way for one of its alternatives, and the names without
alternatives stay for good. This file defines:

* `Productions.Offers p lhs alternative`: the alternative is one of the left-hand side's;
* `Productions.Step p` and `Productions.Derives p`: one step, and zero or more steps, at any place;
* `Productions.Leftmost p`: derivations that always replace the first left-hand side of a form,
  labelled with the places of the alternatives that they choose.

Nothing is assumed about the productions.
-/

namespace BnfGrammar
namespace Productions

variable {p : Productions} {form form' : List String} {lhs : String} {alternative : Alternative}

/-! ## Steps -/

/-- An alternative is among those of a left-hand side. -/
def Offers (p : Productions) (lhs : String) (alternative : Alternative) : Prop :=
  ∃ alternatives, p.find? lhs = some alternatives ∧ alternative ∈ alternatives

/-- A left-hand side in a form is replaced by one of its alternatives. -/
inductive Step (p : Productions) : List String → List String → Prop
  | replace (before after : List String) {lhs : String} {alternative : Alternative} :
      Offers p lhs alternative → Step p (before ++ lhs :: after) (before ++ alternative ++ after)

/-- A form is derived from another in zero or more steps. -/
def Derives (p : Productions) : List String → List String → Prop :=
  Relation.ReflTransGen (Step p)

theorem Offers.mem_keys (h : Offers p lhs alternative) : lhs ∈ p.keys := by
  rcases h with ⟨alternatives, hfind, _⟩
  exact ArrivalMap.mem_keys_iff.2 ⟨alternatives, hfind⟩

theorem offers_of_getElem? {alternatives : List Alternative} {place : Nat}
    (hfind : p.find? lhs = some alternatives) (hplace : alternatives[place]? = some alternative) :
    Offers p lhs alternative :=
  ⟨alternatives, hfind, List.mem_of_getElem? hplace⟩

/-! ## Derivations in context -/

namespace Derives

theorem refl (p : Productions) (form : List String) : Derives p form form :=
  Relation.ReflTransGen.refl

theorem trans {a b c : List String} (hab : Derives p a b) (hbc : Derives p b c) : Derives p a c :=
  Relation.ReflTransGen.trans hab hbc

instance : Trans (Derives p) (Derives p) (Derives p) :=
  ⟨trans⟩

theorem single (h : Step p form form') : Derives p form form' :=
  Relation.ReflTransGen.single h

theorem of_offers (h : Offers p lhs alternative) : Derives p [lhs] alternative := by
  have hstep : Step p ([] ++ lhs :: []) ([] ++ alternative ++ []) := Step.replace [] [] h
  exact single (by simpa using hstep)

theorem append_left (before : List String) (h : Derives p form form') :
    Derives p (before ++ form) (before ++ form') := by
  induction h with
  | refl => exact refl p _
  | tail _ hstep ih =>
      cases hstep with
      | replace a b hoffers =>
          have hnext := Step.replace (before ++ a) b hoffers
          exact ih.trans (single (by simpa using hnext))

theorem append_right (after : List String) (h : Derives p form form') :
    Derives p (form ++ after) (form' ++ after) := by
  induction h with
  | refl => exact refl p _
  | tail _ hstep ih =>
      cases hstep with
      | replace a b hoffers =>
          have hnext := Step.replace a (b ++ after) hoffers
          exact ih.trans (single (by simpa using hnext))

theorem append {a a' b b' : List String} (ha : Derives p a a') (hb : Derives p b b') :
    Derives p (a ++ b) (a' ++ b') :=
  calc
    Derives p (a ++ b) (a' ++ b) := ha.append_right b
    Derives p _ (a' ++ b') := hb.append_left a'

end Derives

/-! ## Forms that begin with terminals -/

/-- A place in two lists that follow one another lies in the first or in the second. -/
theorem split_of_append_eq {name : String} {before after a b : List String}
    (h : a ++ b = before ++ name :: after) :
    (∃ c, a = before ++ name :: c ∧ after = c ++ b) ∨ ∃ c, b = c ++ name :: after := by
  rcases List.append_eq_append_iff.1 h with ⟨c, _, hb⟩ | ⟨c, rfl, hrest⟩
  · exact Or.inr ⟨c, hb⟩
  · cases c with
    | nil => exact Or.inr ⟨[], by simpa using hrest.symm⟩
    | cons n c =>
        simp only [List.cons_append, List.cons.injEq] at hrest
        rcases hrest with ⟨rfl, rfl⟩
        exact Or.inl ⟨c, rfl, rfl⟩

/-- A step leaves the names without alternatives at the front of a form alone. -/
theorem Step.strip {front : List String} (hfront : ∀ name ∈ front, name ∉ p.keys)
    (h : Step p (front ++ form) form') : ∃ rest, form' = front ++ rest ∧ Step p form rest := by
  generalize hwhole : front ++ form = whole at h
  cases h with
  | @replace before after lhs alternative hoffers =>
      rcases split_of_append_eq hwhole with ⟨c, rfl, _⟩ | ⟨c, rfl⟩
      · -- The step cannot be at the front, where no left-hand side stands.
        exact absurd hoffers.mem_keys (hfront lhs (by simp))
      · have hbefore : before = front ++ c := by
          have hsame : (front ++ c) ++ lhs :: after = before ++ lhs :: after := by
            simpa using hwhole
          exact (List.append_cancel_right hsame).symm
        subst hbefore
        exact ⟨c ++ alternative ++ after, by simp, Step.replace c after hoffers⟩

theorem Derives.strip {front : List String} (hfront : ∀ name ∈ front, name ∉ p.keys)
    (h : Derives p (front ++ form) form') :
    ∃ rest, form' = front ++ rest ∧ Derives p form rest := by
  induction h with
  | refl => exact ⟨form, rfl, Derives.refl p form⟩
  | tail _ hstep ih =>
      rcases ih with ⟨middle, rfl, hmiddle⟩
      rcases hstep.strip hfront with ⟨rest, rfl, hrest⟩
      exact ⟨rest, rfl, hmiddle.trans (Derives.single hrest)⟩

/-- The first left-hand side of a form is determined by the form. -/
theorem eq_of_first_lhs {a b a' b' : List String} {name name' : String}
    (h : a ++ name :: b = a' ++ name' :: b') (ha : ∀ n ∈ a, n ∉ p.keys) (hname : name ∈ p.keys)
    (ha' : ∀ n ∈ a', n ∉ p.keys) (hname' : name' ∈ p.keys) : a = a' ∧ name = name' ∧ b = b' := by
  -- Where one list is at its left-hand side and the other is not, a name would be both.
  induction a generalizing a' with
  | nil =>
      cases a' with
      | nil => simpa using h
      | cons n a' =>
          simp only [List.nil_append, List.cons_append, List.cons.injEq] at h
          exact absurd (h.1 ▸ hname) (ha' n List.mem_cons_self)
  | cons n a ih =>
      cases a' with
      | nil =>
          simp only [List.nil_append, List.cons_append, List.cons.injEq] at h
          exact absurd (h.1 ▸ hname') (ha n List.mem_cons_self)
      | cons n' a' =>
          simp only [List.cons_append, List.cons.injEq] at h
          rcases h with ⟨rfl, hrest⟩
          have htail := ih hrest (fun m hm => ha m (List.mem_cons_of_mem n hm))
            (fun m hm => ha' m (List.mem_cons_of_mem n hm))
          exact ⟨by rw [htail.1], htail.2⟩

/-! ## Derivations of two forms that follow one another -/

theorem Derives.eq_nil_of_nil (h : Derives p [] form) : form = [] := by
  induction h with
  | refl => rfl
  | tail _ hstep ih =>
      subst ih
      generalize hempty : ([] : List String) = whole at hstep
      cases hstep with
      | replace before after _ => simp at hempty

/-- A form that is derived from two forms that follow one another is cut where they meet. -/
theorem Derives.exists_append {a b : List String} (h : Derives p (a ++ b) form) :
    ∃ front back, form = front ++ back ∧ Derives p a front ∧ Derives p b back := by
  -- By induction on the derivation: each step is on one side of the cut.
  induction h with
  | refl => exact ⟨a, b, rfl, refl p a, refl p b⟩
  | tail _ hstep ih =>
      rcases ih with ⟨front, back, rfl, hfront, hback⟩
      generalize hwhole : front ++ back = whole at hstep
      cases hstep with
      | @replace before after lhs alternative hoffers =>
          rcases split_of_append_eq hwhole with ⟨c, rfl, rfl⟩ | ⟨c, rfl⟩
          · refine ⟨before ++ alternative ++ c, back, by simp, ?_, hback⟩
            exact hfront.trans (single (Step.replace before c hoffers))
          · have hbefore : front ++ c = before := by
              have hsame : (front ++ c) ++ lhs :: after = before ++ lhs :: after := by
                simpa using hwhole
              exact List.append_cancel_right hsame
            refine ⟨front, c ++ alternative ++ after, by simp [← hbefore], hfront, ?_⟩
            exact hback.trans (single (Step.replace c after hoffers))

/-! ## Leftmost derivations -/

/-- A derivation that always replaces the first left-hand side of the form at hand, with the places
of the alternatives that it chooses. -/
inductive Leftmost (p : Productions) : List String → List Nat → List String → Prop
  | done (form : List String) : Leftmost p form [] form
  | choose (before after : List String) {form : List String} {lhs : String}
      {alternatives : List Alternative} {alternative : Alternative} {place : Nat}
      {choices : List Nat} :
      (∀ name ∈ before, name ∉ p.keys) → p.find? lhs = some alternatives →
      alternatives[place]? = some alternative →
      Leftmost p (before ++ alternative ++ after) choices form →
      Leftmost p (before ++ lhs :: after) (place :: choices) form

namespace Leftmost

theorem derives {choices : List Nat} (h : Leftmost p form choices form') :
    Derives p form form' := by
  induction h with
  | done form => exact Derives.refl p form
  | choose before after _ hfind hplace _ ih =>
      have hstep := Step.replace before after (offers_of_getElem? hfind hplace)
      exact (Derives.single hstep).trans ih

theorem append {a b c : List String} {choices more : List Nat} (hab : Leftmost p a choices b)
    (hbc : Leftmost p b more c) : Leftmost p a (choices ++ more) c := by
  induction hab with
  | done form => exact hbc
  | choose before after hbefore hfind hplace _ ih =>
      exact choose before after hbefore hfind hplace (ih hbc)

/-- A form without left-hand sides is the end of every leftmost derivation. -/
theorem choices_eq_nil {choices : List Nat} (hform : ∀ name ∈ form, name ∉ p.keys)
    (h : Leftmost p form choices form') : choices = [] := by
  cases h with
  | done => rfl
  | choose before after _ hfind _ _ =>
      have hlhs := hform _ (List.mem_append_right before List.mem_cons_self)
      exact absurd (ArrivalMap.mem_keys_iff.2 ⟨_, hfind⟩) hlhs

end Leftmost

end Productions
end BnfGrammar
