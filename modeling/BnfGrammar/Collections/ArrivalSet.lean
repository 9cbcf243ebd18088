/-!
# Sets in order of arrival

A finite set that remembers the order in which its members first arrived. A member that arrives
again keeps its place. The view of a set is its list of members, which holds none of them twice.
-/

namespace BnfGrammar

structure ArrivalSet (α : Type) where
  toList : List α
  nodup : toList.Nodup
  deriving DecidableEq

namespace ArrivalSet

variable {α : Type}

theorem ext {s t : ArrivalSet α} (h : s.toList = t.toList) : s = t := by
  cases s
  cases t
  cases h
  rfl

/-! ## Operations -/

def empty : ArrivalSet α :=
  ⟨[], List.nodup_nil⟩

instance : EmptyCollection (ArrivalSet α) :=
  ⟨empty⟩

instance : Membership α (ArrivalSet α) :=
  ⟨fun s a => a ∈ s.toList⟩

theorem mem_def {a : α} {s : ArrivalSet α} : a ∈ s ↔ a ∈ s.toList :=
  Iff.rfl

def size (s : ArrivalSet α) : Nat :=
  s.toList.length

def filter (s : ArrivalSet α) (keep : α → Bool) : ArrivalSet α :=
  ⟨s.toList.filter keep, s.nodup.sublist List.filter_sublist⟩

@[simp]
theorem mem_filter {s : ArrivalSet α} {keep : α → Bool} {a : α} :
    a ∈ s.filter keep ↔ a ∈ s ∧ keep a = true := by
  simp [mem_def, filter]

variable [DecidableEq α]

instance (a : α) (s : ArrivalSet α) : Decidable (a ∈ s) :=
  inferInstanceAs (Decidable (a ∈ s.toList))

/-- Adds `a` as the last member, unless it has arrived before. -/
def insert (s : ArrivalSet α) (a : α) : ArrivalSet α :=
  if h : a ∈ s.toList then s
  else ⟨s.toList ++ [a], by grind [List.nodup_append, s.nodup]⟩

/-- The members of a list in the order of their first occurrences. -/
def ofList (l : List α) : ArrivalSet α :=
  l.foldl insert empty

/-! ## Views -/

theorem toList_insert (s : ArrivalSet α) (a : α) :
    (s.insert a).toList = if a ∈ s then s.toList else s.toList ++ [a] := by
  by_cases h : a ∈ s.toList <;> simp [insert, mem_def, h]

@[simp]
theorem mem_insert {s : ArrivalSet α} {a b : α} : b ∈ s.insert a ↔ b ∈ s ∨ b = a := by
  by_cases h : a ∈ s.toList
  · have key : (s.insert a).toList = s.toList := by simp [toList_insert, mem_def, h]
    rw [mem_def, key, mem_def]
    exact ⟨Or.inl, fun hb => hb.elim id fun he => he ▸ h⟩
  · simp [mem_def, toList_insert, h]

end ArrivalSet
end BnfGrammar
