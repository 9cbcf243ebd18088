import BnfGrammar.Proofs.SyntaxTree.Preorder
import Mathlib.Data.List.Forall2

/-!
# Walks and comparisons of trees

A walk lists every node of a tree once: its entries stand at the addresses of the tree, and the
addresses come in lexicographic order. Two trees are compared by the tags, labels and numbers of
children of the nodes on their walks. These signatures determine a tree, because the number of
children says how much of the rest of the walk belongs to a node, so the comparison is equality.
-/

namespace BnfGrammar
namespace Node

variable {tag : Tag} {label : String} {children : List Node} {a b tree : Node}

/-! ## Recursion -/

/-- A list of trees is taken apart into the children of its first tree and the trees behind it. -/
theorem forest_induction {motive : List Node → Prop} (nil : motive [])
    (cons : ∀ tag label children rest, motive children → motive rest →
      motive (mk tag label children :: rest)) : ∀ forest, motive forest
  | [] => nil
  | mk tag label children :: rest =>
      cons tag label children rest (forest_induction nil cons children)
        (forest_induction nil cons rest)

theorem map_snd_preorder {β : Type} (inherit : β → Node → β) (value : β) (tree : Node) :
    (preorder inherit value tree).map Prod.snd = tree.walk := by
  have hforest : ∀ forest : List Node, ∀ (value : β) (other : Unit),
      (preorderAll inherit value forest).map Prod.snd =
        (preorderAll (fun _ _ => ()) other forest).map Prod.snd := by
    intro forest
    induction forest using forest_induction with
    | nil => exact fun _ _ => rfl
    | cons tag label children rest ihChildren ihRest =>
        intro value other
        simp only [preorderAll, preorder, List.map_append, List.map_cons]
        rw [ihChildren _ (), ihRest _ ()]
  have htree := hforest [tree] value ()
  simp only [preorderAll, List.append_nil] at htree
  rw [walk, visits_eq_preorder, htree]

theorem isWord_iff {n : Node} : n.isWord = true ↔ ∃ kind, n.tag = .token kind := by
  unfold isWord
  cases n.tag <;> simp

/-- A node comes before its children, and the tree of each child before the next one. -/
theorem walk_mk (tag : Tag) (label : String) (children : List Node) :
    (mk tag label children).walk = mk tag label children :: children.flatMap walk := by
  have hwalk : ∀ tree : Node, tree.walk = (preorder (fun _ _ => ()) () tree).map Prod.snd :=
    fun tree => (map_snd_preorder _ () tree).symm
  rw [hwalk, preorder, List.map_cons, preorderAll_eq_flatMap, List.map_flatMap]
  exact congrArg _ (List.flatMap_congr fun tree _ => (hwalk tree).symm)

theorem length_walk (tree : Node) : tree.walk.length = tree.size := by
  have hforest : ∀ forest : List Node, (forest.flatMap walk).length = sizeAll forest := by
    intro forest
    induction forest using forest_induction with
    | nil => rfl
    | cons tag label children rest ihChildren ihRest =>
        rw [List.flatMap_cons, walk_mk, List.length_append, List.length_cons, ihChildren, ihRest,
          sizeAll, size]
  simpa [sizeAll] using hforest [tree]

/-! ## Addresses -/

/-- The node that is reached by taking the child at each of the places in turn. -/
def at? : List Nat → Node → Option Node
  | [], tree => some tree
  | place :: address, tree => tree.children[place]?.bind (at? address)

mutual

/-- The addresses of the nodes of a tree, in the order in which it is walked. -/
def addresses : Node → List (List Nat)
  | mk _ _ children => [] :: addressesFrom 0 children

/-- The addresses of the nodes of trees that are children from a place on. -/
def addressesFrom : Nat → List Node → List (List Nat)
  | _, [] => []
  | place, n :: rest => (addresses n).map (place :: ·) ++ addressesFrom (place + 1) rest

end

theorem mem_addressesFrom_iff {address : List Nat} :
    ∀ {forest : List Node} {first : Nat}, address ∈ addressesFrom first forest ↔
      ∃ place below n, address = (first + place) :: below ∧ forest[place]? = some n ∧
        below ∈ n.addresses := by
  intro forest
  induction forest with
  | nil => simp [addressesFrom]
  | cons n rest ih =>
      intro first
      rw [addressesFrom, List.mem_append, List.mem_map, ih]
      constructor
      · rintro (⟨below, hbelow, rfl⟩ | ⟨place, below, m, rfl, hplace, hbelow⟩)
        · exact ⟨0, below, n, rfl, rfl, hbelow⟩
        · exact ⟨place + 1, below, m, by rw [Nat.add_assoc, Nat.add_comm 1], hplace, hbelow⟩
      · rintro ⟨place, below, m, rfl, hplace, hbelow⟩
        cases place with
        | zero =>
            cases hplace
            exact Or.inl ⟨below, hbelow, rfl⟩
        | succ place =>
            exact Or.inr ⟨place, below, m, by rw [Nat.add_assoc, Nat.add_comm 1], hplace, hbelow⟩

/-- The addresses of a tree are those at which it has a node. -/
theorem mem_addresses_iff {address : List Nat} :
    ∀ {tree : Node}, address ∈ tree.addresses ↔ (at? address tree).isSome = true := by
  induction address with
  | nil =>
      rintro ⟨tag, label, children⟩
      simp [addresses, at?]
  | cons place below ih =>
      rintro ⟨tag, label, children⟩
      rw [addresses, List.mem_cons, mem_addressesFrom_iff, at?, Option.isSome_iff_exists]
      simp only [Option.bind_eq_some_iff, Node.children]
      constructor
      · rintro (hnil | ⟨place', below', n, hcons, hplace, hbelow⟩)
        · cases hnil
        · rw [Nat.zero_add, List.cons.injEq] at hcons
          rcases hcons with ⟨rfl, rfl⟩
          rcases Option.isSome_iff_exists.1 (ih.1 hbelow) with ⟨m, hm⟩
          exact ⟨m, n, hplace, hm⟩
      · rintro ⟨m, n, hplace, hm⟩
        refine Or.inr ⟨place, below, n, by rw [Nat.zero_add], hplace, ih.2 ?_⟩
        exact Option.isSome_iff_exists.2 ⟨m, hm⟩

/-- Addresses are listed in lexicographic order, so none is listed twice. -/
theorem pairwise_addresses (tree : Node) : tree.addresses.Pairwise (· < ·) := by
  have hforest : ∀ (forest : List Node) (first : Nat),
      (addressesFrom first forest).Pairwise (· < ·) := by
    intro forest
    induction forest using forest_induction with
    | nil => exact fun _ => .nil
    | cons tag label children rest ihChildren ihRest =>
        intro first
        rw [addressesFrom, addresses, List.pairwise_append, List.pairwise_map, List.pairwise_cons]
        refine ⟨⟨?_, ?_⟩, ihRest (first + 1), ?_⟩
        · intro address haddress
          rcases mem_addressesFrom_iff.1 haddress with ⟨place, below, n, rfl, _, _⟩
          simp
        · simpa using ihChildren 0
        · intro address haddress other hother
          rcases List.mem_map.1 haddress with ⟨below, _, rfl⟩
          rcases mem_addressesFrom_iff.1 hother with ⟨place, below', n, rfl, _, _⟩
          exact List.cons_lt_cons_iff.2 (Or.inl (by omega))
  rcases tree with ⟨tag, label, children⟩
  rw [addresses, List.pairwise_cons]
  refine ⟨?_, hforest children 0⟩
  intro address haddress
  rcases mem_addressesFrom_iff.1 haddress with ⟨place, below, n, rfl, _, _⟩
  exact List.nil_lt_cons _ _

/-- The entries of a walk are the nodes at the addresses, in the same order. -/
theorem at?_addresses (tree : Node) :
    List.Forall₂ (fun address n => at? address tree = some n) tree.addresses tree.walk := by
  -- By induction on the last children of a node, behind any children in front of them.
  have hforest : ∀ (forest front : List Node) (tag : Tag) (label : String),
      List.Forall₂ (fun address n => at? address (mk tag label (front ++ forest)) = some n)
        (addressesFrom front.length forest) (forest.flatMap walk) := by
    intro forest
    induction forest using forest_induction with
    | nil => exact fun _ _ _ => .nil
    | cons tag' label' children rest ihChildren ihRest =>
        intro front tag label
        have hfirst : ∀ address, at? (front.length :: address)
            (mk tag label (front ++ mk tag' label' children :: rest)) =
              at? address (mk tag' label' children) := by
          intro address
          simp [at?, Node.children]
        rw [addressesFrom, addresses, List.flatMap_cons, walk_mk]
        refine List.rel_append (List.forall₂_map_left_iff.2 ?_) ?_
        · simp only [hfirst]
          exact .cons rfl (ihChildren [] tag' label')
        · simpa using ihRest (front ++ [mk tag' label' children]) tag label
  rcases tree with ⟨tag, label, children⟩
  rw [addresses, walk_mk]
  exact .cons rfl (hforest children [] tag label)

/-! ## Signatures -/

/-- As many trees as there are at the front of two walks are determined by the signatures. -/
theorem forest_eq_of_signatures :
    ∀ {forest other : List Node} {behind behind' : List (Tag × String × Nat)},
      forest.length = other.length →
      (forest.flatMap walk).map signature ++ behind =
        (other.flatMap walk).map signature ++ behind' →
      forest = other ∧ behind = behind' := by
  intro forest
  induction forest using forest_induction with
  | nil =>
      intro other behind behind' hlength h
      obtain rfl := List.eq_nil_of_length_eq_zero hlength.symm
      exact ⟨rfl, h⟩
  | cons tag label children rest ihChildren ihRest =>
      intro other behind behind' hlength h
      rcases other with _ | ⟨⟨tag', label', children'⟩, rest'⟩
      · cases hlength
      simp only [List.flatMap_cons, walk_mk, List.cons_append, List.map_cons, List.map_append,
        List.append_assoc, List.cons.injEq, signature, Prod.mk.injEq, Node.tag, Node.label,
        Node.children] at h
      rcases h with ⟨⟨rfl, rfl, hcount⟩, hbehind⟩
      -- The children are told apart from the trees behind them by their number.
      rcases ihChildren hcount hbehind with ⟨rfl, hrest⟩
      rcases ihRest (Nat.succ.inj hlength) hrest with ⟨rfl, rfl⟩
      exact ⟨rfl, rfl⟩

/-- Trees with the same signatures on their walks are equal. -/
theorem beq_iff : (a == b) = true ↔ a = b := by
  have hbeq : (a == b) = true ↔ a.walk.map signature = b.walk.map signature := by
    change (a.walk.map signature == b.walk.map signature) = true ↔ _
    exact beq_iff_eq
  rw [hbeq]
  constructor
  · intro h
    have hforest : [a] = [b] ∧ ([] : List (Tag × String × Nat)) = [] := by
      refine forest_eq_of_signatures rfl ?_
      simpa using h
    exact List.singleton_inj.1 hforest.1
  · rintro rfl
    rfl

/-- Comparing the walks of two trees is comparing the trees. A walk lists a node before the walks
of its children, in their order, and it lists the node at each address once; the leaves are the
words among its entries. -/
theorem walks_determine_trees :
    (∀ a b : Node, (a == b) = true ↔ a = b) ∧
      (∀ (tag : Tag) (label : String) (children : List Node),
        (mk tag label children).walk = mk tag label children :: children.flatMap walk) ∧
      (∀ tree : Node, tree.addresses.Pairwise (· < ·) ∧
        (∀ address, address ∈ tree.addresses ↔ (at? address tree).isSome = true) ∧
        List.Forall₂ (fun address n => at? address tree = some n) tree.addresses tree.walk) ∧
      (∀ tree : Node, tree.leaves = tree.walk.filter isWord) ∧
      ∀ n : Node, n.isWord = true ↔ ∃ kind, n.tag = .token kind := by
  refine ⟨fun a b => beq_iff, walk_mk, ?_, fun tree => rfl, fun n => isWord_iff⟩
  intro tree
  exact ⟨pairwise_addresses tree, fun address => mem_addresses_iff, at?_addresses tree⟩

end Node
end BnfGrammar
