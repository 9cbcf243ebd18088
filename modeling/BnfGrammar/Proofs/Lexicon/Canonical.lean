import BnfGrammar.Proofs.Lexicon.Stored
import Mathlib.Data.List.Forall2
import Mathlib.Data.List.Pairwise

/-!
# The stored form is canonical

Equal lexicons have equal files, and different lexicons have different files. A map or a set may
hand out its entries in any order: sorting them gives the list that is stored, because different
entries have different keys. Every list of a file is strictly ascending in its keys.

Files that were not written by `Lexicon.store` may have their lists in any order and with
repetitions. Loading such a file and storing the lexicon gives a file that is loaded and stored
without a further change.
-/

namespace BnfGrammar

/-! ## Sorting -/

section Sorting

variable {α κ ν : Type}

/-- The members of a list in ascending order. -/
def sortBy (cmp : α → α → Ordering) (l : List α) : List α :=
  l.mergeSort fun a b => (cmp a b).isLE

/-- A list that ascends strictly is what sorting its members gives, in whatever order they come. -/
theorem sortBy_eq_of_perm {cmp : α → α → Ordering} [Std.TransCmp cmp] {items l : List α}
    (hperm : items.Perm l) (hl : l.Pairwise fun a b => cmp a b = .lt) : sortBy cmp items = l := by
  have hsorted : (sortBy cmp items).Pairwise fun a b => (cmp a b).isLE = true := by
    refine List.pairwise_mergeSort (fun _ _ _ => Std.TransCmp.isLE_trans) ?_ items
    intro a b
    cases hab : cmp a b with
    | lt => rfl
    | eq => rfl
    | gt =>
        rw [Std.OrientedCmp.gt_iff_lt.1 hab]
        rfl
  have hsame : (sortBy cmp items).Perm l := (List.mergeSort_perm items _).trans hperm
  have hle : l.Pairwise fun a b => (cmp a b).isLE = true := hl.imp fun h => by simp [h]
  refine List.Perm.eq_of_pairwise ?_ hsorted hle hsame
  intro a b ha hb hab hba
  -- No two different members of the list are equal in the order.
  have heq : cmp a b = .eq := Std.OrientedCmp.isLE_antisymm hab hba
  have hne : l.Pairwise fun a b => cmp a b ≠ .eq := hl.imp fun h => by simp [h]
  have : Std.Symm fun a b : α => cmp a b ≠ .eq := ⟨fun _ _ h h' => h (Std.OrientedCmp.eq_symm h')⟩
  by_contra hdifferent
  exact hne.forall (hsame.mem_iff.1 ha) hb hdifferent heq

theorem perm_iff_of_nodup {items l : List α} (hl : l.Nodup) :
    items.Perm l ↔ items.Nodup ∧ ∀ a, a ∈ items ↔ a ∈ l := by
  constructor
  · intro h
    exact ⟨h.nodup_iff.2 hl, fun _ => h.mem_iff⟩
  · rintro ⟨hitems, hmem⟩
    exact (List.perm_ext_iff_of_nodup hitems hl).2 hmem

/-- Entries are ordered by their keys first and by their values second. -/
def byEntry (byKey : κ → κ → Ordering) (byValue : ν → ν → Ordering) : κ × ν → κ × ν → Ordering :=
  compareLex (fun a b => byKey a.1 b.1) fun a b => byValue a.2 b.2

theorem transCmp_on (cmp : κ → κ → Ordering) [Std.TransCmp cmp] (f : α → κ) :
    Std.TransCmp fun a b => cmp (f a) (f b) where
  eq_swap := Std.OrientedCmp.eq_swap
  isLE_trans := Std.TransCmp.isLE_trans

instance (byKey : κ → κ → Ordering) (byValue : ν → ν → Ordering) [Std.TransCmp byKey]
    [Std.TransCmp byValue] : Std.TransCmp (byEntry byKey byValue) := by
  have := transCmp_on byKey (Prod.fst : κ × ν → κ)
  have := transCmp_on byValue (Prod.snd : κ × ν → ν)
  exact inferInstanceAs (Std.TransCmp (compareLex _ _))

variable {byKey : κ → κ → Ordering} [Std.TransCmp byKey] [Std.LawfulEqCmp byKey]

theorem entriesOf_iff_perm {m : Std.ExtTreeMap κ ν byKey} {entries : List (κ × ν)} :
    EntriesOf m entries ↔ entries.Perm m.toList := by
  have hlisted := entriesOf_toList m
  rw [perm_iff_of_nodup hlisted.nodup]
  constructor
  · intro h
    exact ⟨h.nodup, fun _ => h.mem_iff.trans hlisted.mem_iff.symm⟩
  · rintro ⟨hnodup, hmem⟩
    exact ⟨hnodup, (hmem _).trans hlisted.mem_iff⟩

theorem membersOf_iff_perm {s : Std.ExtTreeSet κ byKey} {members : List κ} :
    MembersOf s members ↔ members.Perm s.toList := by
  have hlisted := membersOf_toList s
  rw [perm_iff_of_nodup hlisted.nodup]
  constructor
  · intro h
    exact ⟨h.nodup, fun _ => h.mem_iff.trans hlisted.mem_iff.symm⟩
  · rintro ⟨hnodup, hmem⟩
    exact ⟨hnodup, (hmem _).trans hlisted.mem_iff⟩

/-- Sorting the entries of a map lists them in ascending order of keys. The values do not matter,
because no two entries have the same key. -/
theorem EntriesOf.sortBy_eq {byValue : ν → ν → Ordering} [Std.TransCmp byValue]
    {m : Std.ExtTreeMap κ ν byKey} {entries : List (κ × ν)} (h : EntriesOf m entries) :
    sortBy (byEntry byKey byValue) entries = m.toList := by
  refine sortBy_eq_of_perm (entriesOf_iff_perm.1 h) (Std.ExtTreeMap.ordered_keys_toList.imp ?_)
  intro a b hkeys
  exact Ordering.then_eq_lt.2 (Or.inl hkeys)

theorem MembersOf.sortBy_eq {s : Std.ExtTreeSet κ byKey} {members : List κ}
    (h : MembersOf s members) : sortBy byKey members = s.toList :=
  sortBy_eq_of_perm (membersOf_iff_perm.1 h) Std.ExtTreeSet.ordered_toList

end Sorting

/-! ## Listings in order -/

namespace Table

variable {t : Table} {l : Listing}

/-- A listing with its lists sorted, those of entries by keys first and by values second. -/
def Listing.sorted (l : Listing) : Listing where
  kind := l.kind
  classes := sortBy (byEntry compare compare) l.classes
  transitions := sortBy (byEntry byClassAndState compare) l.transitions
  tokens := sortBy (byEntry compare (compareOn TokenKind.number)) l.tokens
  accepting := sortBy compare l.accepting
  legal := sortBy compare l.legal
  classCount := l.classCount

/-- A listing whose lists are strictly ascending in their keys. The keys of transitions are ordered
by class first and by source state second. -/
structure Listing.Ascending (l : Listing) : Prop where
  classes : l.classes.Pairwise fun a b => a.1 < b.1
  transitions : l.transitions.Pairwise fun a b => Prod.Lex (· < ·) (· < ·) a.1 b.1
  tokens : l.tokens.Pairwise fun a b => a.1 < b.1
  accepting : l.accepting.Pairwise fun a b => a < b
  legal : l.legal.Pairwise fun a b => a < b

/-- A table has the fields of a listing that may have repetitions: the last entry for a key counts,
and a member counts once. -/
structure TakesLast (l : Listing) (t : Table) : Prop where
  kind_eq : t.kind = l.kind
  classes : ∀ c, t.classOfChar[c]? = (l.classes.filter (·.1 = c)).getLast?.map Prod.snd
  transitions : ∀ key, t.transitions[key]? =
    (l.transitions.filter (·.1 = key)).getLast?.map Prod.snd
  tokens : ∀ s, t.tokenOf[s]? = (l.tokens.filter (·.1 = s)).getLast?.map Prod.snd
  accepting : ∀ s, s ∈ t.accepting ↔ s ∈ l.accepting
  legal : ∀ s, s ∈ t.legal ↔ s ∈ l.legal
  classCount_eq : t.classCount = l.classCount

theorem takesLast_toTable (l : Listing) : TakesLast l l.toTable where
  kind_eq := rfl
  classes := fun c => getElem?_foldl_insert compare Prod.fst Prod.snd c l.classes
  transitions := fun key =>
    getElem?_foldl_insert byClassAndState Prod.fst Prod.snd key l.transitions
  tokens := fun s => getElem?_foldl_insert compare Prod.fst Prod.snd s l.tokens
  accepting := fun _ => mem_ofList_iff
  legal := fun _ => mem_ofList_iff
  classCount_eq := rfl

/-- Sorting hides the order in which the entries of a table come. -/
theorem Lists.sorted_eq (h : Lists l t) : l.sorted = t.listing := by
  rw [Listing.sorted, listing, h.kind_eq, h.classes.sortBy_eq, h.transitions.sortBy_eq,
    h.tokens.sortBy_eq, h.accepting.sortBy_eq, h.legal.sortBy_eq, h.classCount_eq]

theorem character_lt_of_compare {c d : Char} (h : compare c d = .lt) : c < d :=
  compareOfLessAndEq_eq_lt.1 h

theorem state_lt_of_compare {a b : StateId} (h : compare a b = .lt) : a < b :=
  compareOfLessAndEq_eq_lt.1 h

theorem lex_of_byClassAndState {a b : ClassId × StateId} (h : byClassAndState a b = .lt) :
    Prod.Lex (· < ·) (· < ·) a b := by
  rcases Ordering.then_eq_lt.1 h with hclass | ⟨hclass, hstate⟩
  · exact Prod.lex_def.2 (Or.inl (state_lt_of_compare hclass))
  · exact Prod.lex_def.2 (Or.inr ⟨Std.LawfulEqCmp.eq_of_compare hclass,
      state_lt_of_compare hstate⟩)

theorem ascending_listing (t : Table) : t.listing.Ascending where
  classes := Std.ExtTreeMap.ordered_keys_toList.imp character_lt_of_compare
  transitions := Std.ExtTreeMap.ordered_keys_toList.imp lex_of_byClassAndState
  tokens := Std.ExtTreeMap.ordered_keys_toList.imp state_lt_of_compare
  accepting := Std.ExtTreeSet.ordered_toList.imp state_lt_of_compare
  legal := Std.ExtTreeSet.ordered_toList.imp state_lt_of_compare

end Table

/-! ## Files -/

namespace Lexicon

/-- The text of a file with the tables of some listings. -/
def textOf (listings : List Table.Listing) : String :=
  (jsonOf listings).pretty

theorem store_eq_textOf (lexicon : Lexicon) :
    lexicon.store = textOf (lexicon.tables.map Table.listing) := by
  rw [store, toJson_eq_jsonOf, textOf]

/-- A file is accepted with its lists in any order and with any repetitions. -/
theorem load_textOf (listings : List Table.Listing) :
    load (textOf listings).toUTF8 = .ok ⟨listings.map Table.Listing.toTable⟩ := by
  rw [load, Text.decode_toUTF8, textOf, Json.parse?_pretty (natural_jsonOf listings),
    Option.bind_some, ofJson?_jsonOf]

theorem map_toTable_of_lists {listings : List Table.Listing} {tables : List Table}
    (h : List.Forall₂ Table.Lists listings tables) :
    listings.map Table.Listing.toTable = tables := by
  induction h with
  | nil => rfl
  | cons hlists _ ih => rw [List.map_cons, hlists.toTable_eq, ih]

theorem map_sorted_of_lists {listings : List Table.Listing} {tables : List Table}
    (h : List.Forall₂ Table.Lists listings tables) :
    listings.map Table.Listing.sorted = tables.map Table.listing := by
  induction h with
  | nil => rfl
  | cons hlists _ ih => rw [List.map_cons, hlists.sorted_eq, ih, List.map_cons]

theorem forall₂_lists_listing (tables : List Table) :
    List.Forall₂ Table.Lists (tables.map Table.listing) tables :=
  List.forall₂_map_left_iff.2 (List.forall₂_same.2 fun t _ => t.lists_listing)

theorem load_store_eq (lexicon : Lexicon) : load lexicon.store.toUTF8 = .ok lexicon := by
  rw [store_eq_textOf, load_textOf, map_toTable_of_lists (forall₂_lists_listing lexicon.tables)]

theorem store_inj {a b : Lexicon} : a.store = b.store ↔ a = b := by
  refine ⟨?_, congrArg store⟩
  intro h
  have hload : (.ok a : Except LoadError Lexicon) = .ok b := by
    rw [← load_store_eq a, h, load_store_eq b]
  exact Except.ok.inj hload

/-- The stored form is canonical.
* Two lexicons have the same text exactly if they are the same.
* The tables may be built by insertions in any order, and their maps and sets may hand out their
  entries in any order: the sorted lists have the same text.
* The text consists of lists that have each entry once and are strictly ascending in their keys.
* A file with lists in any order and with repetitions is loaded, and the last entry for a key
  counts.
* Whatever file was loaded, storing the lexicon gives a text that is loaded as the same lexicon and
  stored as the same text. -/
theorem store_canonical :
    (∀ a b : Lexicon, a.store = b.store ↔ a = b) ∧
    (∀ (lexicon : Lexicon) (listings : List Table.Listing),
      List.Forall₂ Table.Lists listings lexicon.tables →
        ⟨listings.map Table.Listing.toTable⟩ = lexicon ∧
        textOf (listings.map Table.Listing.sorted) = lexicon.store) ∧
    (∀ lexicon : Lexicon, ∃ listings, lexicon.store = textOf listings ∧
      List.Forall₂ Table.Lists listings lexicon.tables ∧ ∀ l ∈ listings, l.Ascending) ∧
    (∀ listings, ∃ lexicon, load (textOf listings).toUTF8 = .ok lexicon ∧
      List.Forall₂ Table.TakesLast listings lexicon.tables) ∧
    (∀ bytes lexicon, load bytes = .ok lexicon →
      load lexicon.store.toUTF8 = load bytes ∧
      (load lexicon.store.toUTF8).map store = .ok lexicon.store) := by
  refine ⟨fun a b => store_inj, ?_, ?_, ?_, ?_⟩
  · intro lexicon listings hlists
    refine ⟨?_, ?_⟩
    · rw [map_toTable_of_lists hlists]
    · rw [map_sorted_of_lists hlists, store_eq_textOf]
  · intro lexicon
    refine ⟨lexicon.tables.map Table.listing, lexicon.store_eq_textOf,
      forall₂_lists_listing lexicon.tables, ?_⟩
    intro l hl
    rcases List.mem_map.1 hl with ⟨t, _, rfl⟩
    exact t.ascending_listing
  · intro listings
    refine ⟨_, load_textOf listings, ?_⟩
    exact List.forall₂_map_right_iff.2
      (List.forall₂_same.2 fun l _ => Table.takesLast_toTable l)
  · intro bytes lexicon hload
    rw [load_store_eq, hload]
    exact ⟨rfl, rfl⟩

/-- A file with descending lists, a class that is given up for a later one, and states twice. -/
def scattered : Table.Listing where
  kind := .symbol
  classes := [('b', 1), ('a', 0), ('b', 0)]
  transitions := [((1, 0), 1), ((0, 1), 1), ((0, 0), 1)]
  tokens := [(1, .epsilon), (1, .symbol)]
  accepting := [1, 1]
  legal := [1, 0, 1]
  classCount := 2

/-- The entries of the table of that file, each once and not in order. -/
def turned : Table.Listing where
  kind := .symbol
  classes := [('b', 0), ('a', 0)]
  transitions := [((1, 0), 1), ((0, 0), 1), ((0, 1), 1)]
  tokens := [(1, .symbol)]
  accepting := [1]
  legal := [1, 0]
  classCount := 2

theorem store_canonical_scattered :
    load (textOf [scattered]).toUTF8 = .ok ⟨[scattered.toTable]⟩ ∧
      Table.Lists turned scattered.toTable ∧
      textOf [turned.sorted] = store ⟨[scattered.toTable]⟩ ∧
      load (store ⟨[scattered.toTable]⟩).toUTF8 = load (textOf [scattered]).toUTF8 := by
  rcases store_canonical with ⟨_, hsorted, _, _, hloaded⟩
  have hload : load (textOf [scattered]).toUTF8 = .ok ⟨[scattered.toTable]⟩ :=
    load_textOf [scattered]
  have hlists : Table.Lists turned scattered.toTable :=
    { kind_eq := rfl
      classes := entriesOf_iff_perm.2 (by decide)
      transitions := entriesOf_iff_perm.2 (by decide)
      tokens := entriesOf_iff_perm.2 (by decide)
      accepting := membersOf_iff_perm.2 (by decide)
      legal := membersOf_iff_perm.2 (by decide)
      classCount_eq := rfl }
  have htext := hsorted ⟨[scattered.toTable]⟩ [turned] (.cons hlists .nil)
  exact ⟨hload, hlists, htext.2, (hloaded _ _ hload).1⟩

end Lexicon
end BnfGrammar
