import BnfGrammar.Collections.ArrivalSet

/-!
# Maps in order of arrival

A finite map that remembers the order in which its keys first arrived. A key that is written again
keeps its place and takes the new value. The view of a map is its list of entries, in which no key
occurs twice; `find?` looks a key up.
-/

namespace BnfGrammar

structure ArrivalMap (α β : Type) where
  toList : List (α × β)
  nodup : (toList.map Prod.fst).Nodup
  deriving DecidableEq

namespace ArrivalMap

variable {α β : Type}

theorem ext {m n : ArrivalMap α β} (h : m.toList = n.toList) : m = n := by
  cases m
  cases n
  cases h
  rfl

/-! ## Reading -/

def empty : ArrivalMap α β :=
  ⟨[], List.nodup_nil⟩

instance : EmptyCollection (ArrivalMap α β) :=
  ⟨empty⟩

def keys (m : ArrivalMap α β) : List α :=
  m.toList.map Prod.fst

def size (m : ArrivalMap α β) : Nat :=
  m.toList.length

variable [DecidableEq α]

def lookup (k : α) : List (α × β) → Option β
  | [] => none
  | (k', v) :: rest => if k' = k then some v else lookup k rest

def find? (m : ArrivalMap α β) (k : α) : Option β :=
  lookup k m.toList

/-! ## Writing -/

/-- Replaces the value of `k` by what `f` makes of it, or adds what `f` makes of nothing. -/
def alterList (k : α) (f : Option β → β) : List (α × β) → List (α × β)
  | [] => [(k, f none)]
  | (k', v) :: rest =>
      if k' = k then (k', f (some v)) :: rest else (k', v) :: alterList k f rest

/-- Replaces the value of `k` by what `f` makes of it, if there is one. -/
def adjustList (k : α) (f : β → β) : List (α × β) → List (α × β)
  | [] => []
  | (k', v) :: rest =>
      if k' = k then (k', f v) :: rest else (k', v) :: adjustList k f rest

theorem keys_alterList (k : α) (f : Option β → β) (l : List (α × β)) :
    (alterList k f l).map Prod.fst =
      if k ∈ l.map Prod.fst then l.map Prod.fst else l.map Prod.fst ++ [k] := by
  induction l with
  | nil => simp [alterList]
  | cons entry rest ih =>
      obtain ⟨k', v⟩ := entry
      by_cases h : k' = k
      · simp [alterList, h]
      · have hne : ¬ k = k' := fun he => h he.symm
        by_cases hk : k ∈ rest.map Prod.fst <;> simp_all [alterList]

theorem keys_adjustList (k : α) (f : β → β) (l : List (α × β)) :
    (adjustList k f l).map Prod.fst = l.map Prod.fst := by
  induction l with
  | nil => rfl
  | cons entry rest ih =>
      obtain ⟨k', v⟩ := entry
      by_cases h : k' = k <;> simp [adjustList, h, ih]

theorem nodup_alterList (k : α) (f : Option β → β) {l : List (α × β)}
    (h : (l.map Prod.fst).Nodup) : ((alterList k f l).map Prod.fst).Nodup := by
  have hinsert := ((⟨l.map Prod.fst, h⟩ : ArrivalSet α).insert k).nodup
  rw [ArrivalSet.toList_insert] at hinsert
  rw [keys_alterList]
  exact hinsert

/-- Gives `k` the value that `f` makes of its present one. A new key comes last. -/
def alter (m : ArrivalMap α β) (k : α) (f : Option β → β) : ArrivalMap α β :=
  ⟨alterList k f m.toList, nodup_alterList k f m.nodup⟩

def insert (m : ArrivalMap α β) (k : α) (v : β) : ArrivalMap α β :=
  m.alter k fun _ => v

/-- Gives `k` the value that `f` makes of its present one, and leaves a missing key missing. -/
def adjust (m : ArrivalMap α β) (k : α) (f : β → β) : ArrivalMap α β :=
  ⟨adjustList k f m.toList, (keys_adjustList k f m.toList).symm ▸ m.nodup⟩

/-- The map of a list of entries. Of two entries for one key the later gives the value and the
earlier the place. -/
def ofList (l : List (α × β)) : ArrivalMap α β :=
  l.foldl (fun m entry => m.insert entry.1 entry.2) empty

/-! ## Views -/

theorem keys_alter (m : ArrivalMap α β) (k : α) (f : Option β → β) :
    (m.alter k f).keys = if k ∈ m.keys then m.keys else m.keys ++ [k] :=
  keys_alterList k f m.toList

@[simp]
theorem keys_adjust (m : ArrivalMap α β) (k : α) (f : β → β) : (m.adjust k f).keys = m.keys :=
  keys_adjustList k f m.toList

theorem lookup_alterList (k k' : α) (f : Option β → β) (l : List (α × β)) :
    lookup k' (alterList k f l) = if k = k' then some (f (lookup k l)) else lookup k' l := by
  induction l with
  | nil => simp [alterList, lookup]
  | cons entry rest ih =>
      obtain ⟨k₁, v⟩ := entry
      by_cases h₁ : k₁ = k
      · subst h₁
        by_cases h₂ : k₁ = k' <;> simp [alterList, lookup, h₂]
      · by_cases h₂ : k₁ = k'
        · subst h₂
          have hne : ¬ k = k₁ := fun he => h₁ he.symm
          simp [alterList, lookup, h₁, hne]
        · simp [alterList, lookup, h₁, h₂, ih]

theorem lookup_adjustList (k k' : α) (f : β → β) (l : List (α × β)) :
    lookup k' (adjustList k f l) = if k = k' then (lookup k l).map f else lookup k' l := by
  induction l with
  | nil => simp [adjustList, lookup]
  | cons entry rest ih =>
      obtain ⟨k₁, v⟩ := entry
      by_cases h₁ : k₁ = k
      · subst h₁
        by_cases h₂ : k₁ = k' <;> simp [adjustList, lookup, h₂]
      · by_cases h₂ : k₁ = k'
        · subst h₂
          have hne : ¬ k = k₁ := fun he => h₁ he.symm
          simp [adjustList, lookup, h₁, hne]
        · simp [adjustList, lookup, h₁, h₂, ih]

theorem find?_alter (m : ArrivalMap α β) (k k' : α) (f : Option β → β) :
    (m.alter k f).find? k' = if k = k' then some (f (m.find? k)) else m.find? k' :=
  lookup_alterList k k' f m.toList

theorem find?_adjust (m : ArrivalMap α β) (k k' : α) (f : β → β) :
    (m.adjust k f).find? k' = if k = k' then (m.find? k).map f else m.find? k' :=
  lookup_adjustList k k' f m.toList

theorem lookup_isSome (k : α) (l : List (α × β)) :
    (lookup k l).isSome = true ↔ k ∈ l.map Prod.fst := by
  induction l with
  | nil => simp [lookup]
  | cons entry rest ih =>
      obtain ⟨k', v⟩ := entry
      by_cases h : k' = k
      · simp [lookup, h]
      · have hne : ¬ k = k' := fun he => h he.symm
        simpa [lookup, h, hne] using ih

theorem isSome_find? (m : ArrivalMap α β) (k : α) : (m.find? k).isSome = true ↔ k ∈ m.keys :=
  lookup_isSome k m.toList

end ArrivalMap
end BnfGrammar
