import BnfGrammar.Proofs.SyntaxTree.Walk
import BnfGrammar.Proofs.Text.Quoted
import BnfGrammar.SyntaxTree.Dump

/-!
# What a dump shows

A dump has one line for each node. A line shows the depth of its node by its blanks, and behind
them the tag and, for a word, the quoted text. The depths of the nodes in pre-order determine the
shape of the tree, so a dump shows the whole tree, except for labels of rules, which it leaves out.
-/

namespace BnfGrammar

/-! ## Texts of lines -/

section Lines

variable {α : Type} {stop : α} {front front' behind behind' : List α} {lines lines' : List (List α)}

/-- The first stop divides a list. -/
theorem append_cons_inj [DecidableEq α] (hfront : stop ∉ front) (hfront' : stop ∉ front')
    (h : front ++ stop :: behind = front' ++ stop :: behind') : front = front' ∧ behind = behind' := by
  have hbefore : ∀ front behind : List α, stop ∉ front →
      (front ++ stop :: behind).takeWhile (· ≠ stop) = front := by
    intro front behind hfront
    have hkeep : ∀ a ∈ front, decide (a ≠ stop) = true :=
      fun a ha => decide_eq_true fun he => hfront (he ▸ ha)
    rw [List.takeWhile_append_of_pos hkeep, List.takeWhile_cons_of_neg (by simp), List.append_nil]
  have hsame : front = front' := by
    rw [← hbefore front behind hfront, h, hbefore front' behind' hfront']
  subst hsame
  exact ⟨rfl, List.tail_eq_of_cons_eq (List.append_cancel_left h)⟩

/-- Lines that each end with a stop, and have no other, can be told from the whole text. -/
theorem flatMap_lines_inj [DecidableEq α] (h : ∀ line ∈ lines, stop ∉ line)
    (h' : ∀ line ∈ lines', stop ∉ line)
    (hsame : lines.flatMap (· ++ [stop]) = lines'.flatMap (· ++ [stop])) : lines = lines' := by
  induction lines generalizing lines' with
  | nil =>
      cases lines' with
      | nil => rfl
      | cons line' lines' => simp at hsame
  | cons line lines ih =>
      cases lines' with
      | nil => simp at hsame
      | cons line' lines' =>
          rcases List.forall_mem_cons.1 h with ⟨hline, hlines⟩
          rcases List.forall_mem_cons.1 h' with ⟨hline', hlines'⟩
          simp only [List.flatMap_cons, List.append_assoc, List.singleton_append] at hsame
          rcases append_cons_inj hline hline' hsame with ⟨rfl, hrest⟩
          rw [ih hlines hlines' hrest]

theorem count_flatMap_lines [DecidableEq α] (h : ∀ line ∈ lines, stop ∉ line) :
    (lines.flatMap (· ++ [stop])).count stop = lines.length := by
  induction lines with
  | nil => rfl
  | cons line lines ih =>
      rcases List.forall_mem_cons.1 h with ⟨hline, hlines⟩
      simp [ih hlines, List.count_eq_zero.2 hline]

end Lines

/-! ## Names -/

theorem TokenKind.name_inj {kind kind' : TokenKind} : kind.name = kind'.name ↔ kind = kind' := by
  cases kind <;> cases kind' <;> decide

theorem Rule.name_inj {rule rule' : Rule} : rule.name = rule'.name ↔ rule = rule' := by
  cases rule <;> cases rule' <;> decide

theorem TokenKind.blank_not_mem_name (kind : TokenKind) : ' ' ∉ kind.name.toList := by
  cases kind <;> decide

theorem Rule.blank_not_mem_name (rule : Rule) : ' ' ∉ rule.name.toList := by
  cases rule <;> decide

theorem Tag.lineFeed_not_mem_name (tag : Tag) : '\n' ∉ tag.name.toList := by
  cases tag with
  | token kind => cases kind <;> decide
  | rule rule => cases rule <;> decide

/-- A name begins with something else than a blank. -/
theorem Tag.exists_name (tag : Tag) : ∃ c rest, tag.name.toList = c :: rest ∧ c ≠ ' ' := by
  have hname : tag.name.toList ≠ [] ∧ tag.name.toList.head? ≠ some ' ' := by
    cases tag with
    | token kind => cases kind <;> decide
    | rule rule => cases rule <;> decide
  rcases List.exists_cons_of_ne_nil hname.1 with ⟨c, rest, hcons⟩
  exact ⟨c, rest, hcons, fun hc => hname.2 (by rw [hcons, hc, List.head?_cons])⟩

namespace Node

variable {a b n m : Node} {depth depth' : Nat}

/-! ## Captions -/

theorem caption_of_token {kind : TokenKind} (h : n.tag = .token kind) :
    n.caption = kind.name ++ " " ++ Text.quoted n.label := by
  rw [caption, h]

theorem caption_of_rule {rule : Rule} (h : n.tag = .rule rule) : n.caption = rule.name := by
  rw [caption, h]

/-- No label is left out of the caption of a node. -/
def Shown (n : Node) : Prop :=
  ∀ rule, n.tag = .rule rule → n.label = ""

/-- The caption of a word has a blank behind the name and that of a rule has none. -/
theorem caption_inj (hn : n.Shown) (hm : m.Shown) (h : n.caption = m.caption) :
    n.tag = m.tag ∧ n.label = m.label := by
  have hlist := congrArg String.toList h
  cases htag : n.tag with
  | token kind =>
      rw [caption_of_token htag] at hlist
      cases htag' : m.tag with
      | token kind' =>
          rw [caption_of_token htag'] at hlist
          simp only [String.toList_append, List.append_assoc] at hlist
          rcases append_cons_inj kind.blank_not_mem_name kind'.blank_not_mem_name hlist with
            ⟨hname, hquoted⟩
          have hkind : kind = kind' := TokenKind.name_inj.1 (String.toList_injective hname)
          have hlabel : n.label = m.label := Text.quoted_inj.1 (String.toList_injective hquoted)
          exact ⟨by rw [hkind], hlabel⟩
      | rule rule =>
          rw [caption_of_rule htag'] at hlist
          have hblank := rule.blank_not_mem_name
          rw [← hlist] at hblank
          simp at hblank
  | rule rule =>
      rw [caption_of_rule htag] at hlist
      cases htag' : m.tag with
      | token kind =>
          rw [caption_of_token htag'] at hlist
          have hblank := rule.blank_not_mem_name
          rw [hlist] at hblank
          simp at hblank
      | rule rule' =>
          rw [caption_of_rule htag'] at hlist
          have hrule : rule = rule' := Rule.name_inj.1 (String.toList_injective hlist)
          exact ⟨by rw [hrule], (hn rule htag).trans (hm rule' htag').symm⟩

/-- A caption begins with the name of the tag and stands on one line. -/
theorem exists_caption (n : Node) :
    ∃ behind, n.caption = n.tag.name ++ behind ∧ '\n' ∉ behind.toList := by
  cases htag : n.tag with
  | token kind =>
      refine ⟨" " ++ Text.quoted n.label, ?_, by simp [Text.lineFeed_not_mem_quoted]⟩
      rw [caption_of_token htag, String.append_assoc]
      rfl
  | rule rule =>
      refine ⟨"", ?_, by simp⟩
      rw [caption_of_rule htag, String.append_empty]
      rfl

/-! ## Lines -/

/-- The line of a node without its line feed. -/
def lineOf (entry : Nat × Node) : List Char :=
  List.replicate (2 * entry.1) ' ' ++ entry.2.caption.toList

theorem toList_dump (tree : Node) :
    tree.dump.toList = (tree.walkWithDepth.map lineOf).flatMap (· ++ ['\n']) := by
  simp [dump, dumpLine, lineOf, String.toList_join, List.flatMap_map]

theorem lineFeed_not_mem_lines (tree : Node) :
    ∀ line ∈ tree.walkWithDepth.map lineOf, '\n' ∉ line := by
  refine List.forall_mem_map.2 fun entry _ => ?_
  rcases exists_caption entry.2 with ⟨behind, hcaption, hbehind⟩
  simp [lineOf, hcaption, hbehind, entry.2.tag.lineFeed_not_mem_name]

/-- The blanks of a line show the depth, since no caption begins with one. -/
theorem lineOf_inj {entry other : Nat × Node} (h : lineOf entry = lineOf other) :
    entry.1 = other.1 ∧ entry.2.caption = other.2.caption := by
  have hbehind : ∀ entry : Nat × Node,
      (lineOf entry).dropWhile (· = ' ') = entry.2.caption.toList := by
    intro entry
    rcases exists_caption entry.2 with ⟨behind, hcaption, _⟩
    rcases entry.2.tag.exists_name with ⟨c, rest, hname, hc⟩
    rw [lineOf, List.dropWhile_append_of_pos (by simp), hcaption, String.toList_append, hname,
      List.cons_append, List.dropWhile_cons_of_neg (by simpa using hc)]
  have hcaption : entry.2.caption.toList = other.2.caption.toList := by
    rw [← hbehind, h, hbehind]
  have hlength := congrArg List.length h
  simp only [lineOf, hcaption, List.length_append, List.length_replicate] at hlength
  exact ⟨by omega, String.toList_injective hcaption⟩

/-! ## Depths -/

/-- What the line of an entry shows: the depth, the tag and the label. -/
def shown (entry : Nat × Node) : Nat × Tag × String :=
  (entry.1, entry.2.tag, entry.2.label)

/-- What the lines of trees show whose roots have the same depth. -/
def outline (depth : Nat) (forest : List Node) : List (Nat × Tag × String) :=
  (preorderAll (fun depth _ => depth + 1) depth forest).map shown

theorem outline_cons (depth : Nat) (tag : Tag) (label : String) (children rest : List Node) :
    outline depth (mk tag label children :: rest) =
      (depth, tag, label) :: (outline (depth + 1) children ++ outline depth rest) := by
  simp [outline, preorderAll, preorder, shown, Node.tag, Node.label]

/-- What stands behind trees of some depth goes on with an entry that is less deep. -/
def Above (depth : Nat) (behind : List (Nat × Tag × String)) : Prop :=
  ∀ entry ∈ behind.head?, entry.1 < depth

theorem Above.outline {behind : List (Nat × Tag × String)} (h : Above depth behind)
    (forest : List Node) : Above (depth + 1) (outline depth forest ++ behind) := by
  rcases forest with _ | ⟨⟨tag, label, children⟩, rest⟩
  · exact fun entry hentry => Nat.lt_succ_of_lt (h entry hentry)
  · rw [outline_cons]
    rintro entry ⟨⟩
    exact Nat.lt_succ_self depth

/-- The trees of some depth at the front of a listing are determined by it. -/
theorem forest_eq_of_outline :
    ∀ {forest other : List Node} {depth : Nat} {behind behind' : List (Nat × Tag × String)},
      Above depth behind → Above depth behind' →
      outline depth forest ++ behind = outline depth other ++ behind' →
      forest = other ∧ behind = behind' := by
  intro forest
  induction forest using forest_induction with
  | nil =>
      intro other depth behind behind' habove _ h
      rcases other with _ | ⟨⟨tag, label, children⟩, rest⟩
      · exact ⟨rfl, h⟩
      · rw [outline_cons] at h
        exact absurd (habove (depth, tag, label) (by simp [show behind = _ from h]))
          (Nat.lt_irrefl depth)
  | cons tag label children rest ihChildren ihRest =>
      intro other depth behind behind' habove habove' h
      rcases other with _ | ⟨⟨tag', label', children'⟩, rest'⟩
      · rw [outline_cons] at h
        exact absurd (habove' (depth, tag, label) (by simp [show behind' = _ from h.symm]))
          (Nat.lt_irrefl depth)
      · simp only [outline_cons, List.cons_append, List.append_assoc, List.cons.injEq,
          Prod.mk.injEq, true_and] at h
        rcases h with ⟨⟨rfl, rfl⟩, hbehind⟩
        -- The children end where an entry is not deeper than their parent.
        rcases ihChildren (habove.outline rest) (habove'.outline rest') hbehind with ⟨rfl, hrest⟩
        rcases ihRest habove habove' hrest with ⟨rfl, rfl⟩
        exact ⟨rfl, rfl⟩

/-! ## Dumps -/

theorem map_snd_walkWithDepth (tree : Node) : tree.walkWithDepth.map Prod.snd = tree.walk := by
  rw [walkWithDepth, visits_eq_preorder, map_snd_preorder]

theorem map_shown_walkWithDepth (tree : Node) :
    tree.walkWithDepth.map shown = outline 0 [tree] := by
  simp [walkWithDepth, visits_eq_preorder, outline, preorderAll]

/-- A dump has a line feed for each node. -/
theorem count_dump (tree : Node) : tree.dump.toList.count '\n' = tree.size := by
  rw [toList_dump, count_flatMap_lines (lineFeed_not_mem_lines tree), List.length_map,
    ← length_walk, ← map_snd_walkWithDepth, List.length_map]

/-- A dump ends with a line feed. -/
theorem exists_dump_eq (tree : Node) : ∃ front, tree.dump = front ++ "\n" := by
  have hne : tree.walkWithDepth ≠ [] := by
    rcases tree with ⟨tag, label, children⟩
    intro hnil
    have hwalk := map_snd_walkWithDepth (mk tag label children)
    rw [hnil, walk_mk] at hwalk
    cases hwalk
  rcases (List.eq_nil_or_concat tree.walkWithDepth).resolve_left hne with ⟨before, last, hconcat⟩
  refine ⟨String.ofList ((before.map lineOf).flatMap (· ++ ['\n']) ++ lineOf last), ?_⟩
  apply String.toList_injective
  rw [toList_dump, hconcat]
  simp

/-- Entries of the same lines show the same, if no label is left out. -/
theorem map_shown_eq :
    ∀ {entries others : List (Nat × Node)}, (∀ entry ∈ entries, entry.2.Shown) →
      (∀ entry ∈ others, entry.2.Shown) → entries.map lineOf = others.map lineOf →
      entries.map shown = others.map shown := by
  intro entries
  induction entries with
  | nil =>
      intro others _ _ h
      obtain rfl := List.map_eq_nil_iff.1 h.symm
      rfl
  | cons entry entries ih =>
      intro others hentries hothers h
      cases others with
      | nil => cases h
      | cons other others =>
          rcases List.forall_mem_cons.1 hentries with ⟨hentry, hentries⟩
          rcases List.forall_mem_cons.1 hothers with ⟨hother, hothers⟩
          rw [List.map_cons, List.map_cons, List.cons.injEq] at h
          rcases lineOf_inj h.1 with ⟨hdepth, hcaption⟩
          rcases caption_inj hentry hother hcaption with ⟨htag, hlabel⟩
          rw [List.map_cons, List.map_cons, ih hentries hothers h.2, shown, shown, hdepth, htag,
            hlabel]

/-- Dumps of trees whose rules have no labels show the trees. -/
theorem eq_of_dump_eq (ha : ∀ n ∈ a.walk, n.Shown) (hb : ∀ n ∈ b.walk, n.Shown)
    (h : a.dump = b.dump) : a = b := by
  have hentries : ∀ tree : Node, (∀ n ∈ tree.walk, n.Shown) →
      ∀ entry ∈ tree.walkWithDepth, entry.2.Shown := by
    intro tree htree entry hentry
    exact htree entry.2 (map_snd_walkWithDepth tree ▸ List.mem_map_of_mem hentry)
  have htext := congrArg String.toList h
  rw [toList_dump, toList_dump] at htext
  have hshown := map_shown_eq (hentries a ha) (hentries b hb)
    (flatMap_lines_inj (lineFeed_not_mem_lines a) (lineFeed_not_mem_lines b) htext)
  rw [map_shown_walkWithDepth, map_shown_walkWithDepth] at hshown
  have hend : Above 0 [] := fun entry hentry => by cases hentry
  have hforest : [a] = [b] ∧ ([] : List (Nat × Tag × String)) = [] :=
    forest_eq_of_outline hend hend (by simpa using hshown)
  exact List.singleton_inj.1 hforest.1

/-- A dump has as many line feeds as its tree has nodes and ends with one. Of trees in which no rule
has a label, the dumps are equal exactly if the trees are. -/
theorem dump_shows_tree :
    (∀ tree : Node,
      tree.dump.toList.count '\n' = tree.size ∧ ∃ front, tree.dump = front ++ "\n") ∧
      ∀ a b : Node, (∀ n ∈ a.walk, ∀ rule, n.tag = .rule rule → n.label = "") →
        (∀ n ∈ b.walk, ∀ rule, n.tag = .rule rule → n.label = "") →
        (a.dump = b.dump ↔ (a == b) = true) := by
  refine ⟨fun tree => ⟨count_dump tree, exists_dump_eq tree⟩, ?_⟩
  intro a b ha hb
  rw [beq_iff]
  constructor
  · exact eq_of_dump_eq ha hb
  · rintro rfl
    rfl

/-- A word with children, whose text has quotes, a backslash and control characters. -/
def laden : Node :=
  mk (.token .symbol) "a\"\\\n\x07" [expansion .symbolListTail [], word .endOfInput ""]

/-- The same words and rules in the same order, of which one has another parent. -/
def regrafted : Node :=
  mk (.token .symbol) "a\"\\\n\x07" [expansion .symbolListTail [word .endOfInput ""]]

theorem dump_shows_tree_laden :
    (∀ n ∈ laden.walk, ∀ rule, n.tag = .rule rule → n.label = "") ∧
      (∀ n ∈ regrafted.walk, ∀ rule, n.tag = .rule rule → n.label = "") ∧
      laden.dump.toList.count '\n' = 3 ∧ laden.dump ≠ regrafted.dump := by
  have hladen : ∀ n ∈ laden.walk, ∀ rule, n.tag = .rule rule → n.label = "" := by
    simp [laden, expansion, word, walk_mk, Node.tag, Node.label]
  have hregrafted : ∀ n ∈ regrafted.walk, ∀ rule, n.tag = .rule rule → n.label = "" := by
    simp [regrafted, expansion, word, walk_mk, Node.tag, Node.label]
  have hdiffer : ¬ (laden == regrafted) = true := by decide
  refine ⟨hladen, hregrafted, (dump_shows_tree.1 laden).1, ?_⟩
  intro h
  exact hdiffer ((dump_shows_tree.2 laden regrafted hladen hregrafted).1 h)

end Node
end BnfGrammar
