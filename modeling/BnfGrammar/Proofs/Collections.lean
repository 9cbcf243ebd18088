import BnfGrammar.Collections.ArrivalMap
import Mathlib.Data.List.Induction

/-!
# Views of collections in order of arrival

The members of the set of a list, which are its elements without the later repetitions. For maps,
what the operations that write to one mean for `find?` and `keys`, and the two views of a map from
which it can be recovered: its list of entries, and its keys together with its lookups.
-/

namespace BnfGrammar

namespace ArrivalSet

variable {α : Type} [DecidableEq α]

theorem insert_of_mem {s : ArrivalSet α} {a : α} (h : a ∈ s) : s.insert a = s := by
  apply ext
  rw [toList_insert, if_pos h]

theorem toList_insert_of_notMem {s : ArrivalSet α} {a : α} (h : a ∉ s) :
    (s.insert a).toList = s.toList ++ [a] := by
  rw [toList_insert, if_neg h]

theorem ofList_concat (l : List α) (a : α) : ofList (l ++ [a]) = (ofList l).insert a := by
  simp [ofList]

/-- The members of the set of a list are its elements without the later repetitions. -/
theorem toList_ofList (l : List α) : (ofList l).toList = l.eraseDups := by
  induction l using List.reverseRecOn with
  | nil => rfl
  | append_singleton l a ih =>
      have hmem : a ∈ ofList l ↔ a ∈ l := by rw [mem_def, ih, List.mem_eraseDups]
      rw [ofList_concat, toList_insert, ih, List.eraseDups_append]
      by_cases ha : a ∈ l
      · rw [if_pos (hmem.2 ha)]
        simp [List.removeAll, ha]
      · rw [if_neg (fun h => ha (hmem.1 h))]
        simp [List.removeAll, ha, List.eraseDups_cons]

@[simp]
theorem mem_ofList {l : List α} {a : α} : a ∈ ofList l ↔ a ∈ l := by
  rw [mem_def, toList_ofList, List.mem_eraseDups]

end ArrivalSet

/-! ## Lists without repetitions -/

theorem nodup_eraseDups {α : Type} [DecidableEq α] (l : List α) : l.eraseDups.Nodup :=
  ArrivalSet.toList_ofList l ▸ (ArrivalSet.ofList l).nodup

theorem eraseDups_of_nodup {α : Type} [DecidableEq α] {l : List α} (h : l.Nodup) :
    l.eraseDups = l := by
  induction l with
  | nil => rfl
  | cons a l ih =>
      rcases List.nodup_cons.1 h with ⟨ha, hl⟩
      have hkept : l.filter (fun b => !b == a) = l := by
        refine List.filter_eq_self.2 fun b hb => ?_
        have hne : b ≠ a := fun he => ha (he ▸ hb)
        simpa using hne
      rw [List.eraseDups_cons, hkept, ih hl]

namespace ArrivalMap

variable {α β : Type} [DecidableEq α]

/-! ## Lookups and entries -/

@[simp]
theorem find?_empty (k : α) : (∅ : ArrivalMap α β).find? k = none :=
  rfl

theorem lookup_eq_some_iff {k : α} {v : β} :
    ∀ {l : List (α × β)}, (l.map Prod.fst).Nodup → (lookup k l = some v ↔ (k, v) ∈ l) := by
  intro l
  induction l with
  | nil =>
      intro _
      simp [lookup]
  | cons entry rest ih =>
      intro hnodup
      rcases entry with ⟨k', v'⟩
      have hcons : k' ∉ rest.map Prod.fst ∧ (rest.map Prod.fst).Nodup := by
        simpa using hnodup
      by_cases h : k' = k
      · subst h
        -- The key is at hand, so it has no other entry further on.
        have hrest : (k', v) ∉ rest := by
          intro hmem
          exact hcons.1 (List.mem_map.2 ⟨(k', v), hmem, rfl⟩)
        simp [lookup, hrest, eq_comm]
      · have hne : ¬ k = k' := fun he => h he.symm
        simp [lookup, h, hne, ih hcons.2]

theorem find?_eq_some_iff {m : ArrivalMap α β} {k : α} {v : β} :
    m.find? k = some v ↔ (k, v) ∈ m.toList :=
  lookup_eq_some_iff m.nodup

theorem mem_keys_iff {m : ArrivalMap α β} {k : α} : k ∈ m.keys ↔ ∃ v, m.find? k = some v := by
  rw [← isSome_find?, Option.isSome_iff_exists]

theorem find?_eq_none_iff {m : ArrivalMap α β} {k : α} : m.find? k = none ↔ k ∉ m.keys := by
  rw [← isSome_find?]
  simp

/-- Lists of entries with the same distinct keys that find the same are equal. -/
theorem eq_of_lookup_eq :
    ∀ {a b : List (α × β)}, (a.map Prod.fst).Nodup → a.map Prod.fst = b.map Prod.fst →
      (∀ k, lookup k a = lookup k b) → a = b := by
  intro a
  induction a with
  | nil =>
      intro b _ hkeys _
      simpa using hkeys.symm
  | cons entry rest ih =>
      intro b hnodup hkeys hlookup
      rcases entry with ⟨k, v⟩
      cases b with
      | nil => simp at hkeys
      | cons entry' rest' =>
          rcases entry' with ⟨k', v'⟩
          simp only [List.map_cons, List.cons.injEq] at hkeys
          rcases hkeys with ⟨rfl, hrest⟩
          have hcons : k ∉ rest.map Prod.fst ∧ (rest.map Prod.fst).Nodup := by
            simpa using hnodup
          have hv : v = v' := by
            simpa [lookup] using hlookup k
          subst hv
          -- The tails find the same for every other key, since the heads do not matter there.
          have htail : ∀ k₁, lookup k₁ rest = lookup k₁ rest' := by
            intro k₁
            by_cases hk : k = k₁
            · subst hk
              -- Neither tail has the key of the head.
              have hleft : (lookup k rest).isSome = false := by
                simpa using fun h => hcons.1 ((lookup_isSome k rest).1 h)
              have hright : (lookup k rest').isSome = false := by
                simpa using fun h => hcons.1 (hrest ▸ (lookup_isSome k rest').1 h)
              simp only [Option.isSome_eq_false_iff, Option.isNone_iff_eq_none] at hleft hright
              rw [hleft, hright]
            · simpa [lookup, hk] using hlookup k₁
          rw [ih hcons.2 hrest htail]

/-- A map is determined by its keys and what is found for them. -/
theorem ext_find? {m n : ArrivalMap α β} (hkeys : m.keys = n.keys)
    (hfind : ∀ k, m.find? k = n.find? k) : m = n :=
  ext (eq_of_lookup_eq m.nodup hkeys hfind)

/-! ## Lookups and keys after writing -/

theorem find?_insert (m : ArrivalMap α β) (k k' : α) (v : β) :
    (m.insert k v).find? k' = if k = k' then some v else m.find? k' :=
  find?_alter m k k' fun _ => v

/-- What is found after a value has been written for each of some keys. -/
theorem find?_foldl_insert (f : α → β) (k : α) :
    ∀ (l : List α) (m : ArrivalMap α β),
      (l.foldl (fun m a => m.insert a (f a)) m).find? k =
        if k ∈ l then some (f k) else m.find? k := by
  intro l
  induction l with
  | nil =>
      intro m
      simp
  | cons a rest ih =>
      intro m
      rw [List.foldl_cons, ih, find?_insert]
      by_cases hk : k ∈ rest
      · simp [hk]
      · by_cases ha : a = k
        · simp [ha]
        · have hne : ¬ k = a := fun he => ha he.symm
          simp [hk, ha, hne]

theorem mem_keys_alter {m : ArrivalMap α β} {k k' : α} {f : Option β → β} :
    k' ∈ (m.alter k f).keys ↔ k' ∈ m.keys ∨ k' = k := by
  rw [keys_alter]
  by_cases hk : k ∈ m.keys
  · rw [if_pos hk]
    exact ⟨Or.inl, fun h => h.elim id fun he => he ▸ hk⟩
  · simp [hk]

/-- Writing a value for each of some keys lists them in the order of their first occurrences. -/
theorem keys_foldl_insert (f : α → β) (l : List α) :
    (l.foldl (fun m a => m.insert a (f a)) (∅ : ArrivalMap α β)).keys = l.eraseDups := by
  rw [← ArrivalSet.toList_ofList]
  induction l using List.reverseRecOn with
  | nil => rfl
  | append_singleton l a ih =>
      rw [List.foldl_append, List.foldl_cons, List.foldl_nil, insert, keys_alter, ih,
        ArrivalSet.ofList_concat]
      exact (ArrivalSet.toList_insert _ a).symm

/-- A value that is replaced twice is replaced by what both make of it. -/
theorem alter_alter (m : ArrivalMap α β) (k : α) (f g : Option β → β) :
    (m.alter k f).alter k g = m.alter k fun found => g (some (f found)) := by
  refine ext_find? ?_ fun k' => ?_
  · simp only [keys_alter]
    by_cases hk : k ∈ m.keys <;> simp [hk]
  · simp only [find?_alter]
    by_cases hk : k = k' <;> simp [hk]

/-! ## Grouping -/

/-- A map is listed by its keys if what is found for them is known. -/
theorem toList_eq_map_keys {m : ArrivalMap α β} (f : α → β)
    (h : ∀ k ∈ m.keys, m.find? k = some (f k)) : m.toList = m.keys.map fun k => (k, f k) := by
  have hentry : ∀ entry ∈ m.toList, (entry.1, f entry.1) = entry := by
    intro entry hentry
    have hfound : m.find? entry.1 = some entry.2 := find?_eq_some_iff.2 hentry
    have hkey : entry.1 ∈ m.keys := List.mem_map_of_mem hentry
    rw [Option.some.inj ((h entry.1 hkey).symm.trans hfound)]
  simpa [keys, Function.comp_def] using (List.map_congr_left hentry).symm

section Grouping

variable {ι : Type} (key : ι → α) (values : ι → List β)

/-- Adds the values of an item to those of its key. -/
def collect (m : ArrivalMap α (List β)) (item : ι) : ArrivalMap α (List β) :=
  m.alter (key item) fun found => found.getD [] ++ values item

theorem keys_foldl_collect (items : List ι) :
    (items.foldl (collect key values) ∅).keys = (items.map key).eraseDups := by
  rw [← ArrivalSet.toList_ofList]
  induction items using List.reverseRecOn with
  | nil => rfl
  | append_singleton items item ih =>
      simp [collect, keys_alter, ih, ArrivalSet.ofList_concat, ArrivalSet.toList_insert,
        ArrivalSet.mem_def]

theorem find?_foldl_collect (items : List ι) (k : α) :
    ((items.foldl (collect key values) ∅).find? k).getD [] =
      (items.filter fun item => key item = k).flatMap values := by
  induction items using List.reverseRecOn with
  | nil => rfl
  | append_singleton items item ih =>
      by_cases hk : key item = k
      · simp [collect, find?_alter, hk, ← ih]
      · simp [collect, find?_alter, hk, ← ih]

/-- Collecting the values of items by their keys lists the keys in the order of their first
occurrences, each with the values of all of its items. -/
theorem toList_foldl_collect (items : List ι) :
    (items.foldl (collect key values) ∅).toList = (items.map key).eraseDups.map fun k =>
      (k, (items.filter fun item => key item = k).flatMap values) := by
  rw [← keys_foldl_collect key values items]
  refine toList_eq_map_keys _ fun k hk => ?_
  rcases mem_keys_iff.1 hk with ⟨found, hfound⟩
  rw [← find?_foldl_collect, hfound]
  rfl

end Grouping

end ArrivalMap
end BnfGrammar
