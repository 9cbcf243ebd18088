import BnfGrammar.Lexicon.Scanner
import BnfGrammar.Lexicon.Stored
import BnfGrammar.Proofs.Json.RoundTrip
import BnfGrammar.Proofs.Table.Compile

/-!
# Stored lexicons are read back

A lexicon that is stored and loaded again is the same lexicon, whatever its tables hold: nothing
depends on the tables being compiled from automata. Three things make this so:

* a stored lexicon is a JSON value whose numbers are natural numbers, and these are printed and read
  without loss;
* each part of a stored table is read back from the value that is written for it: kinds by their
  keys, numbers in range, characters as texts of one character, records by the names of their
  fields;
* the entries of a map have different keys, so it does not matter that a later entry for a key
  would replace an earlier one, nor in which order they are inserted.

Files may also have lists that no table is stored with. `Table.Listing` has the fields of a table as
lists in any order and with any repetitions, and `Table.Listing.toTable` is the table that is read
from it.
-/

namespace BnfGrammar

/-! ## Lists of values -/

/-- Values that are read one by one are read together. -/
theorem mapM_map_eq_some {α β γ : Type} {write : α → β} {read : β → Option γ} {value : α → γ}
    {items : List α} (h : ∀ item ∈ items, read (write item) = some (value item)) :
    (items.map write).mapM read = some (items.map value) := by
  induction items with
  | nil => rfl
  | cons item items ih =>
      have hmore := ih fun other hother => h other (List.mem_cons_of_mem item hother)
      rw [List.map_cons, List.mapM_cons, h item List.mem_cons_self, hmore]
      rfl

/-! ## Maps and sets -/

section Collections

variable {κ ν : Type} [DecidableEq κ] {cmp : κ → κ → Ordering} [Std.TransCmp cmp]
  [Std.LawfulEqCmp cmp]

/-- A list has every entry of a map once, in any order. -/
structure EntriesOf (m : Std.ExtTreeMap κ ν cmp) (entries : List (κ × ν)) : Prop where
  nodup : entries.Nodup
  mem_iff : ∀ {k v}, (k, v) ∈ entries ↔ m[k]? = some v

omit [DecidableEq κ] in
theorem entriesOf_toList (m : Std.ExtTreeMap κ ν cmp) : EntriesOf m m.toList where
  nodup := by
    refine Std.ExtTreeMap.distinct_keys_toList.imp ?_
    rintro entry _ hkeys rfl
    exact hkeys Std.ReflCmp.compare_self
  mem_iff := Std.ExtTreeMap.mem_toList_iff_getElem?_eq_some

/-- A map is what inserting its entries into the empty map gives, in whatever order they come. -/
theorem EntriesOf.foldl_insert {m : Std.ExtTreeMap κ ν cmp} {entries : List (κ × ν)}
    (h : EntriesOf m entries) :
    entries.foldl (fun found entry => found.insert entry.1 entry.2)
      (∅ : Std.ExtTreeMap κ ν cmp) = m := by
  apply Std.ExtTreeMap.ext_getElem?
  intro k
  rw [getElem?_foldl_insert cmp Prod.fst Prod.snd k entries]
  cases hvalue : m[k]? with
  | none =>
      have hnone : entries.filter (fun entry => entry.1 = k) = [] := by
        refine List.filter_eq_nil_iff.2 ?_
        rintro ⟨k', v⟩ hentry hkey
        obtain rfl : k' = k := of_decide_eq_true hkey
        rw [h.mem_iff, hvalue] at hentry
        cases hentry
      rw [hnone]
      rfl
  | some v =>
      rcases exists_getLast?_filter (fun entry : κ × ν => entry.1 = k) (h.mem_iff.2 hvalue)
        (decide_eq_true rfl) with ⟨⟨k', v'⟩, hentry, hkey, hlast⟩
      obtain rfl : k' = k := of_decide_eq_true hkey
      rw [hlast, ← hvalue]
      exact (h.mem_iff.1 hentry).symm

/-- A list has every member of a set once, in any order. -/
structure MembersOf (s : Std.ExtTreeSet κ cmp) (members : List κ) : Prop where
  nodup : members.Nodup
  mem_iff : ∀ {k}, k ∈ members ↔ k ∈ s

omit [DecidableEq κ] in
theorem membersOf_toList (s : Std.ExtTreeSet κ cmp) : MembersOf s s.toList where
  nodup := by
    refine Std.ExtTreeSet.distinct_toList.imp ?_
    rintro k _ hkeys rfl
    exact hkeys Std.ReflCmp.compare_self
  mem_iff := Std.ExtTreeSet.mem_toList

theorem mem_ofList_iff {k : κ} {members : List κ} :
    k ∈ Std.ExtTreeSet.ofList members cmp ↔ k ∈ members := by
  rw [Std.ExtTreeSet.mem_ofList, List.contains_iff_mem]

theorem MembersOf.ofList_eq {s : Std.ExtTreeSet κ cmp} {members : List κ}
    (h : MembersOf s members) : Std.ExtTreeSet.ofList members cmp = s := by
  apply Std.ExtTreeSet.ext_mem
  intro k
  rw [mem_ofList_iff, h.mem_iff]

end Collections

/-! ## Digits and texts -/

namespace Text

theorem natural?_toDigits (n : Nat) : natural? (Nat.toDigits 10 n) = some n := by
  have hdigits : (Nat.toDigits 10 n).all Char.isDigit = true :=
    List.all_eq_true.2 fun c hc => Nat.isDigit_of_mem_toDigits (by decide) le_rfl hc
  have hnonempty : (Nat.toDigits 10 n).isEmpty = false := by
    simp
  have hvalue : digitsValue (Nat.toDigits 10 n) = n :=
    Nat.ofDigitChars_ten_toDigits
  rw [natural?, hdigits, hnonempty, hvalue]
  rfl

theorem intact?_intact (s : String) : intact? (intact s) = some s := by
  have hread : (s.toList.map some).mapM id = some (s.toList.map id) :=
    mapM_map_eq_some fun _ _ => rfl
  rw [intact?, intact, hread, Option.map_some, List.map_id, String.ofList_toList]

theorem intact_inj {s s' : String} : intact s = intact s' ↔ s = s' := by
  refine ⟨?_, congrArg intact⟩
  intro h
  have hread := intact?_intact s
  rw [h, intact?_intact] at hread
  exact (Option.some.inj hread).symm

end Text

/-! ## Words, records and kinds -/

namespace Json

theorem asWord?_ofWord (n : UInt32) : (ofWord n).asWord? = some n := by
  have hlt : n.toNat < 4294967296 := n.toNat_lt
  rw [ofWord, ofNat, asWord?, Text.natural?_toDigits]
  simp [hlt]

theorem natural_map {α : Type} {write : α → Json} (h : ∀ item, (write item).Natural)
    (items : List α) : (Json.array (items.map write)).Natural := by
  refine .array ?_
  intro value hvalue
  rcases List.mem_map.1 hvalue with ⟨item, _, rfl⟩
  exact h item

theorem natural_ofFields {fields : List (String × Json)}
    (h : ∀ field ∈ fields, field.2.Natural) : (ofFields fields).Natural := by
  refine .object ?_
  intro field hfield
  rcases List.mem_map.1 hfield with ⟨other, hother, rfl⟩
  exact h other hother

/-- Among fields with different names, only one has a given name. -/
theorem filter_fields_eq {fields : List (String × Json)} (hnodup : (fields.map Prod.fst).Nodup)
    {field : String × Json} (hfield : field ∈ fields) :
    (fields.map fun other => (Text.intact other.1, other.2)).filter
        (fun other => other.1 = Text.intact field.1) = [(Text.intact field.1, field.2)] := by
  induction fields with
  | nil => cases hfield
  | cons first fields ih =>
      rw [List.map_cons, List.nodup_cons] at hnodup
      rw [List.map_cons, List.filter_cons]
      rcases List.mem_cons.1 hfield with rfl | hmem
      · -- No field behind the first has its name.
        have hnone : (fields.map fun other => (Text.intact other.1, other.2)).filter
            (fun other => other.1 = Text.intact field.1) = [] := by
          rw [List.filter_eq_nil_iff]
          intro other hother hname
          rcases List.mem_map.1 hother with ⟨⟨name, value⟩, hin, rfl⟩
          have hsame : name = field.1 := by simpa [Text.intact_inj] using hname
          exact hnodup.1 (hsame ▸ List.mem_map_of_mem hin)
        rw [hnone]
        simp
      · have hne : first.1 ≠ field.1 := by
          intro hsame
          exact hnodup.1 (hsame ▸ List.mem_map_of_mem hmem)
        rw [ih hnodup.2 hmem]
        simp [Text.intact_inj, hne]

/-- A record is read back by the names of its fields, if these are different. -/
theorem asRecord?_ofFields {fields : List (String × Json)}
    (hnodup : (fields.map Prod.fst).Nodup) :
    (ofFields fields).asRecord? (fields.map Prod.fst) = some (fields.map Prod.snd) := by
  have hintact : (fields.map fun field => (Text.intact field.1, field.2)).all
      (fun field => field.1.all Option.isSome) = true := by
    simp [Text.intact]
  rw [ofFields, asRecord?, if_pos hintact]
  refine mapM_map_eq_some ?_
  intro field hfield
  rw [filter_fields_eq hnodup hfield]

end Json

theorem TokenKind.ofJson?_toJson (kind : TokenKind) : ofJson? kind.toJson = some kind := by
  rw [toJson, Json.ofString, ofJson?, Json.asText?, Text.intact?_intact]
  · exact ofKey?_key kind
  · intro name h
    cases h

/-! ## Tables -/

namespace Table

theorem classOfJson?_classToJson (entry : Char × ClassId) :
    classOfJson? (classToJson entry) = some entry := by
  have hchar : (Json.ofString (String.singleton entry.1)).asChar? = some entry.1 := by
    simp [Json.ofString, Text.intact, Json.asChar?]
  rw [classToJson, classOfJson?, hchar, Json.asWord?_ofWord]
  rfl

theorem transitionOfJson?_transitionToJson (entry : (ClassId × StateId) × StateId) :
    transitionOfJson? (transitionToJson entry) = some entry := by
  rw [transitionToJson, transitionOfJson?, Json.asWord?_ofWord, Json.asWord?_ofWord,
    Json.asWord?_ofWord]
  rfl

theorem tokenOfJson?_tokenToJson (entry : StateId × TokenKind) :
    tokenOfJson? (tokenToJson entry) = some entry := by
  rw [tokenToJson, tokenOfJson?, Json.asWord?_ofWord, TokenKind.ofJson?_toJson]
  rfl

theorem listOfJson?_map {α : Type} {write : α → Json} {read : Json → Option α}
    (h : ∀ item, read (write item) = some item) (items : List α) :
    listOfJson? read (.array (items.map write)) = some items := by
  have hitems : (items.map write).mapM read = some (items.map id) :=
    mapM_map_eq_some fun item _ => h item
  rw [List.map_id] at hitems
  rw [listOfJson?, Json.asItems?]
  exact hitems

/-- The fields of a table as a file has them: maps and sets are lists, which may be in any order and
have repetitions. -/
structure Listing where
  kind : TokenKind
  classes : List (Char × ClassId)
  transitions : List ((ClassId × StateId) × StateId)
  tokens : List (StateId × TokenKind)
  accepting : List StateId
  legal : List StateId
  classCount : UInt32

namespace Listing

def toJson (l : Listing) : Json :=
  Json.ofFields (fieldNames.zip
    [l.kind.toJson,
      .array (l.classes.map classToJson),
      .array (l.transitions.map transitionToJson),
      .array (l.tokens.map tokenToJson),
      .array (l.accepting.map Json.ofWord),
      .array (l.legal.map Json.ofWord),
      Json.ofWord l.classCount])

/-- The table that a file describes. Of two entries for one key the later counts. -/
def toTable (l : Listing) : Table where
  kind := l.kind
  classOfChar := l.classes.foldl (fun found entry => found.insert entry.1 entry.2) ∅
  transitions := l.transitions.foldl (fun found entry => found.insert entry.1 entry.2) ∅
  tokenOf := l.tokens.foldl (fun found entry => found.insert entry.1 entry.2) ∅
  accepting := Std.ExtTreeSet.ofList l.accepting
  legal := Std.ExtTreeSet.ofList l.legal
  classCount := l.classCount

theorem natural_toJson (l : Listing) : l.toJson.Natural := by
  have hclass : ∀ entry, (classToJson entry).Natural :=
    fun entry => .array (by simpa using ⟨.text _, .number _⟩)
  have htransition : ∀ entry, (transitionToJson entry).Natural :=
    fun entry => .array (by simpa using ⟨.number _, .number _, .number _⟩)
  have htoken : ∀ entry, (tokenToJson entry).Natural :=
    fun entry => .array (by simpa using ⟨.number _, .text _⟩)
  have hstate : ∀ state, (Json.ofWord state).Natural :=
    fun state => .number state.toNat
  refine Json.natural_ofFields ?_
  intro field hfield
  have hvalue := (List.of_mem_zip hfield).2
  simp only [List.mem_cons, List.not_mem_nil, or_false] at hvalue
  rcases hvalue with h | h | h | h | h | h | h
  · exact h ▸ .text _
  · exact h ▸ Json.natural_map hclass _
  · exact h ▸ Json.natural_map htransition _
  · exact h ▸ Json.natural_map htoken _
  · exact h ▸ Json.natural_map hstate _
  · exact h ▸ Json.natural_map hstate _
  · exact h ▸ hstate _

end Listing

theorem nodup_fieldNames : fieldNames.Nodup := by
  decide

/-- A listing is read as the table that it describes. -/
theorem ofJson?_toJson (l : Listing) : ofJson? l.toJson = some l.toTable := by
  have hrecord : l.toJson.asRecord? fieldNames = some
      [l.kind.toJson,
        .array (l.classes.map classToJson),
        .array (l.transitions.map transitionToJson),
        .array (l.tokens.map tokenToJson),
        .array (l.accepting.map Json.ofWord),
        .array (l.legal.map Json.ofWord),
        Json.ofWord l.classCount] :=
    Json.asRecord?_ofFields nodup_fieldNames
  rw [ofJson?, hrecord]
  simp only [Option.bind_eq_bind, Option.bind_some, TokenKind.ofJson?_toJson,
    listOfJson?_map classOfJson?_classToJson, listOfJson?_map transitionOfJson?_transitionToJson,
    listOfJson?_map tokenOfJson?_tokenToJson, listOfJson?_map Json.asWord?_ofWord,
    Json.asWord?_ofWord]
  rfl

/-- The listing of a table that is stored: maps and sets come in ascending order. -/
def listing (t : Table) : Listing where
  kind := t.kind
  classes := t.classOfChar.toList
  transitions := t.transitions.toList
  tokens := t.tokenOf.toList
  accepting := t.accepting.toList
  legal := t.legal.toList
  classCount := t.classCount

/-- A listing has the fields of a table, with every entry and every member once, in any order. -/
structure Lists (l : Listing) (t : Table) : Prop where
  kind_eq : l.kind = t.kind
  classes : EntriesOf t.classOfChar l.classes
  transitions : EntriesOf t.transitions l.transitions
  tokens : EntriesOf t.tokenOf l.tokens
  accepting : MembersOf t.accepting l.accepting
  legal : MembersOf t.legal l.legal
  classCount_eq : l.classCount = t.classCount

theorem lists_listing (t : Table) : Lists t.listing t :=
  ⟨rfl, entriesOf_toList _, entriesOf_toList _, entriesOf_toList _, membersOf_toList _,
    membersOf_toList _, rfl⟩

/-- A table does not depend on the order in which its entries are inserted. -/
theorem Lists.toTable_eq {l : Listing} {t : Table} (h : Lists l t) : l.toTable = t := by
  rcases t with ⟨kind, classOfChar, transitions, tokenOf, accepting, legal, classCount⟩
  rcases h with ⟨hkind, hclasses, htransitions, htokens, haccepting, hlegal, hcount⟩
  rw [Listing.toTable, hkind, hclasses.foldl_insert, htransitions.foldl_insert,
    htokens.foldl_insert, haccepting.ofList_eq, hlegal.ofList_eq, hcount]

end Table

/-! ## Lexicons -/

namespace Lexicon

/-- The value of a file with the tables of some listings. -/
def jsonOf (listings : List Table.Listing) : Json :=
  Json.ofFields [("tables", .array (listings.map Table.Listing.toJson))]

theorem natural_jsonOf (listings : List Table.Listing) : (jsonOf listings).Natural := by
  refine Json.natural_ofFields ?_
  intro field hfield
  obtain rfl := List.mem_singleton.1 hfield
  exact Json.natural_map Table.Listing.natural_toJson listings

theorem ofJson?_jsonOf (listings : List Table.Listing) :
    ofJson? (jsonOf listings) = some ⟨listings.map Table.Listing.toTable⟩ := by
  have hnodup : ["tables"].Nodup := by decide
  have hrecord : (jsonOf listings).asRecord? ["tables"] =
      some [.array (listings.map Table.Listing.toJson)] :=
    Json.asRecord?_ofFields hnodup
  have htables : (listings.map Table.Listing.toJson).mapM Table.ofJson? =
      some (listings.map Table.Listing.toTable) :=
    mapM_map_eq_some fun l _ => Table.ofJson?_toJson l
  rw [ofJson?, hrecord]
  simp only [Option.bind_eq_bind, Option.bind_some, Table.listOfJson?, Json.asItems?, htables]
  rfl

theorem toJson_eq_jsonOf (lexicon : Lexicon) :
    lexicon.toJson = jsonOf (lexicon.tables.map Table.listing) := by
  rw [toJson, jsonOf, List.map_map]
  rfl

theorem ofJson?_toJson (lexicon : Lexicon) : ofJson? lexicon.toJson = some lexicon := by
  have htables : lexicon.tables.map (fun t => t.listing.toTable) = lexicon.tables :=
    (List.map_congr_left fun t _ => t.lists_listing.toTable_eq).trans (List.map_id _)
  rw [toJson_eq_jsonOf, ofJson?_jsonOf, List.map_map, Function.comp_def, htables]

theorem natural_toJson (lexicon : Lexicon) : lexicon.toJson.Natural :=
  lexicon.toJson_eq_jsonOf ▸ natural_jsonOf _

/-- A lexicon that is stored and loaded again is the same lexicon, with the same tables in the same
order, and so it scans every text in the same way. -/
theorem load_store (lexicon : Lexicon) :
    load lexicon.store.toUTF8 = .ok lexicon ∧
      ∀ text, (load lexicon.store.toUTF8).map (fun loaded => loaded.scan text) =
        .ok (lexicon.scan text) := by
  have hload : load lexicon.store.toUTF8 = .ok lexicon := by
    rw [load, Text.decode_toUTF8, store, Json.parse?_pretty lexicon.natural_toJson,
      Option.bind_some, ofJson?_toJson]
  refine ⟨hload, ?_⟩
  intro text
  rw [hload]
  rfl

end Lexicon
end BnfGrammar
