import DirectoryListing.Proofs.Forest.Making
import DirectoryListing.Proofs.Node.Ancestry
import DirectoryListing.Proofs.Search.Ends
import Mathlib.Logic.Function.Iterate
import Mathlib.Logic.Relation

/-!
# Forests are made of trees

However a forest has been made, there is no way back to a node along its links, neither upwards nor
downwards. A node may be held more than once, so this is not for want of a second way to it: a
parent is made before its children, and numbers fall on every way up and grow on every way down.

So the nodes of a forest stand at trees. The ancestors of a node are the nodes on the way up from
it, which ends at a node without a parent, and its children are the nodes that it holds. What lies
below a node has it among its ancestors. A traversal takes nodes out and puts those in that they
hold, and each time the trees that are pending have lost one node, so that it ends.

## Main definitions

* `Forest.BelongsTo f i p`, `Forest.Holds f i j`: one step upwards, and one step downwards
* `Forest.Lineage f i ps`: the way up from a node, to a node without a parent
* `Forest.visitFirst f pending`: one step of a traversal
* `Forest.IsTreelike f`: the links are those of trees

## Main results

* `Forest.Sound.ancestors_node`, `Forest.Sound.children_tree`: what stands above and below a node
* `Forest.Sound.same_node_iff`: a node is known by its place
* `Forest.Sound.relativePath_node_eq_error_iff`: which nodes a node has no path from
* `Forest.Sound.pending_iterate_visitFirst`: a traversal ends
* `Forest.isTreelike_afterAll`: whatever deeds have made a forest, done or rejected
-/

namespace DirectoryListing.Forest

variable {f : Forest} {i j k p : Nat} {ps : List Nat} {ds : List Deed}

/-! ## Ways up and down -/

/-- One step upwards: the second node is the parent of the first. -/
def BelongsTo (f : Forest) (i p : Nat) : Prop := f.parent? i = some p

/-- One step downwards: the second node has been put into the first. -/
def Holds (f : Forest) (i j : Nat) : Prop := j ∈ f.held i

/-- Numbers fall on the way up. -/
theorem Sound.lt_of_belongsTo (hf : f.Sound) (h : Relation.TransGen f.BelongsTo i p) : p < i := by
  induction h with
  | single h => exact hf.older _ _ h
  | tail _ h ih => exact Nat.lt_trans (hf.older _ _ h) ih

theorem Sound.lt_of_mem_held (hf : f.Sound) (h : j ∈ f.held i) : i < j :=
  hf.older j i (hf.own i j h)

/-- Numbers grow on the way down. -/
theorem Sound.lt_of_holds (hf : f.Sound) (h : Relation.TransGen f.Holds i j) : i < j := by
  induction h with
  | single h => exact hf.lt_of_mem_held h
  | tail _ h ih => exact Nat.lt_trans ih (hf.lt_of_mem_held h)

/-- The numbers on the way up from a node: its parent, its parent's parent and so on, up to a node
without a parent. -/
inductive Lineage (f : Forest) : Nat → List Nat → Prop
  | top {i : Nat} : f.parent? i = none → Lineage f i []
  | under {i p : Nat} {ps : List Nat} : f.parent? i = some p → Lineage f p ps → Lineage f i (p :: ps)

/-- Every way up comes to a node without a parent. -/
theorem Sound.exists_lineage (hf : f.Sound) (i : Nat) : ∃ ps, f.Lineage i ps := by
  induction i using Nat.strongRecOn with
  | ind i ih =>
    cases h : f.parent? i with
    | none => exact ⟨[], .top h⟩
    | some p =>
      obtain ⟨ps, hps⟩ := ih p (hf.older i p h)
      exact ⟨p :: ps, .under h hps⟩

/-- **What lies below a node** has it on its way up. -/
theorem Sound.eq_or_mem_lineage (hf : f.Sound) (h : Relation.ReflTransGen f.Holds i j)
    (hps : f.Lineage j ps) : j = i ∨ i ∈ ps := by
  induction h generalizing ps with
  | refl => exact .inl rfl
  | @tail k j _ hj ih =>
    have hparent : f.parent? j = some k := hf.own k j hj
    cases hps with
    | top h => cases h.symm.trans hparent
    | under h hqs =>
      obtain rfl := Option.some.inj (h.symm.trans hparent)
      rcases ih hqs with rfl | hmem
      · exact .inr List.mem_cons_self
      · exact .inr (List.mem_cons_of_mem _ hmem)

/-! ## Nodes and what stands above them -/

/-- The tree at a node. -/
def tree (f : Forest) (i : Nat) : Tree := f.trees[i]?.getD (.file .root)

theorem nodeWithin_of_top {trees : List Tree} (h : f.parent? i = none) (m : Nat) :
    f.nodeWithin trees m i = .top i (trees[i]?.getD (.file .root)) := by
  rw [parent?] at h
  unfold nodeWithin
  rw [h]

theorem nodeWithin_under {trees : List Tree} (h : f.parent? i = some p) (m : Nat) :
    f.nodeWithin trees (m + 1) i =
      .under (f.nodeWithin trees m p) (f.slot p i) (trees[i]?.getD (.file .root)) := by
  rw [parent?] at h
  conv_lhs => unfold nodeWithin
  rw [h]

/-- A way up is not cut short where it may have as many steps as the number of the node. -/
theorem Sound.nodeWithin_eq (hf : f.Sound) (trees : List Tree) {m n : Nat} (hm : i ≤ m)
    (hn : i ≤ n) : f.nodeWithin trees m i = f.nodeWithin trees n i := by
  induction i using Nat.strongRecOn generalizing m n with
  | ind i ih =>
    cases h : f.parent? i with
    | none => rw [nodeWithin_of_top h, nodeWithin_of_top h]
    | some p =>
      have hp : p < i := hf.older i p h
      obtain ⟨m, rfl⟩ : ∃ k, m = k + 1 := ⟨m - 1, by omega⟩
      obtain ⟨n, rfl⟩ : ∃ k, n = k + 1 := ⟨n - 1, by omega⟩
      have above : f.nodeWithin trees m p = f.nodeWithin trees n p :=
        ih p hp (by omega) (by omega)
      rw [nodeWithin_under h, nodeWithin_under h, above]

theorem node_of_top (h : f.parent? i = none) : f.node i = .top i (f.tree i) :=
  nodeWithin_of_top h _

/-- A node with a parent stands below the node of the parent. -/
theorem Sound.node_under (hf : f.Sound) (h : f.parent? i = some p) :
    f.node i = .under (f.node p) (f.slot p i) (f.tree i) := by
  have hp : p < i := hf.older i p h
  have above : f.nodeWithin f.trees i p = f.node p :=
    hf.nodeWithin_eq f.trees (Nat.le_of_lt hp) (Nat.le_succ p)
  rw [node, nodeWithin_under h, above, tree]

/-- **The ancestors of a node** are the nodes on the way up from it. -/
theorem Sound.ancestors_node (hf : f.Sound) (h : f.Lineage i ps) :
    (f.node i).ancestors = ps.map f.node := by
  induction h with
  | top h => rw [node_of_top h, Node.ancestors, List.map_nil]
  | under h _ ih => rw [hf.node_under h, Node.ancestors, ih, List.map_cons]

theorem Sound.tree_node (hf : f.Sound) (i : Nat) : (f.node i).tree = f.tree i := by
  cases h : f.parent? i with
  | none => rw [node_of_top h, Node.tree]
  | some p => rw [hf.node_under h, Node.tree]

/-! ## Which node is which -/

/-- No two nodes have the same place below a parent. -/
theorem slot_injective (f : Forest) (p : Nat) : Function.Injective (f.slot p) := by
  intro i j h
  unfold slot at h
  split at h
  · exact Slot.loose.inj h
  · split at h <;> split at h
    · next hi _ _ hj =>
      -- a position holds one number only
      cases h
      obtain ⟨_, hi, -⟩ := List.findIdx?_eq_some_iff_getElem.mp hi
      obtain ⟨_, hj, -⟩ := List.findIdx?_eq_some_iff_getElem.mp hj
      exact (of_decide_eq_true hi).symm.trans (of_decide_eq_true hj)
    · cases h
    · cases h
    · exact Slot.loose.inj h

/-- **A node of a forest is known by its place**: no two numbers have the same one. -/
theorem Sound.same_node_iff (hf : f.Sound) : (f.node i).same (f.node j) = true ↔ i = j := by
  constructor
  · intro h
    induction i using Nat.strongRecOn generalizing j with
    | ind i ih =>
      cases hi : f.parent? i with
      | none =>
        cases hj : f.parent? j with
        | none =>
          rw [node_of_top hi, node_of_top hj] at h
          exact of_decide_eq_true h
        | some q =>
          rw [node_of_top hi, hf.node_under hj] at h
          cases h
      | some p =>
        cases hj : f.parent? j with
        | none =>
          rw [hf.node_under hi, node_of_top hj] at h
          cases h
        | some q =>
          rw [hf.node_under hi, hf.node_under hj, Node.same, Bool.and_eq_true,
            decide_eq_true_eq] at h
          obtain rfl := ih p (hf.older i p hi) h.2
          exact f.slot_injective p h.1
  · rintro rfl
    exact Node.same_refl _

/-- **A node of a forest has no path from another one** that neither is the node itself nor stands
on its way up. -/
theorem Sound.relativePath_node_eq_error_iff (hf : f.Sound) (h : f.Lineage i ps)
    {e : Node.Outside} : (f.node i).relativePath (f.node j) = .error e ↔
      j ∉ i :: ps ∧ e = ⟨(f.node i).path, (f.node j).path⟩ := by
  rw [Node.relativePath_eq_error_iff, hf.ancestors_node h, ← List.map_cons, List.forall_mem_map]
  simp only [hf.same_node_iff, List.forall_mem_ne']

/-! ## Nodes and what stands below them -/

/-- The tree at a node is made of the trees at nodes behind it. -/
theorem getElem?_treesFrom (k n : Nat) (items : List Item) : (treesFrom k items)[n]? =
    items[n]?.map fun item => item.tree fun j =>
      if k + n < j then (treesFrom k items)[j - k]? else none := by
  induction items generalizing k n with
  | nil => rfl
  | cons item items ih =>
    -- behind the first node, trees are counted from the next number on
    have behind : ∀ m, k ≤ m → (fun j =>
        if m < j then (treesFrom (k + 1) items)[j - (k + 1)]? else none) = fun j =>
        if m < j then (treesFrom k (item :: items))[j - k]? else none := by
      intro m hm
      funext j
      split
      · have next : j - k = j - (k + 1) + 1 := by omega
        rw [treesFrom, next, List.getElem?_cons_succ]
      · rfl
    cases n with
    | zero =>
      rw [Nat.add_zero, List.getElem?_cons_zero, Option.map_some, ← behind k (Nat.le_refl k)]
      rfl
    | succ n =>
      have hsum : k + (n + 1) = k + 1 + n := by omega
      rw [hsum, List.getElem?_cons_succ, ← behind (k + 1 + n) (by omega)]
      exact ih (k + 1) n

theorem getElem?_trees (f : Forest) (i : Nat) : f.trees[i]? = f.items[i]?.map fun item =>
    item.tree fun j => if i < j then f.trees[j]? else none := by
  have h := getElem?_treesFrom 0 i f.items
  simp only [Nat.zero_add, Nat.sub_zero] at h
  exact h

/-- **The trees below a node** are those at the nodes that it holds. -/
theorem Sound.children_tree (hf : f.Sound) (i : Nat) :
    (f.tree i).children = (f.held i).map f.tree := by
  rw [tree, getElem?_trees, held]
  cases hi : f.items[i]? with
  | none => rfl
  | some item =>
    have hheld : f.held i = item.held := by rw [held, hi]; rfl
    cases hkind : item.kind with
    | file =>
      -- what holds a node is a directory
      have none : item.held = [] := by
        refine List.eq_nil_iff_forall_not_mem.mpr fun j hj => ?_
        have directory := hf.directory j i (hf.own i j (hheld ▸ hj))
        rw [IsDirectory, hi, Option.map_some, hkind] at directory
        cases directory
      simp [Item.tree, hkind, none, Tree.children]
    | directory =>
      have trees : ∀ j ∈ item.held,
          (if i < j then f.trees[j]? else none) = some (f.tree j) := by
        intro j hj
        have hj := hheld ▸ hj
        obtain ⟨item', hj', -⟩ := Option.bind_eq_some_iff.mp (hf.own i j hj)
        rw [if_pos (hf.lt_of_mem_held hj), tree, getElem?_trees, hj']
        rfl
      simp only [Option.map_some, Option.getD_some, Item.tree, hkind, Tree.children]
      exact List.filterMap_eq_map_iff_forall_eq_some.mpr trees

/-! ## Traversals -/

/-- The pending nodes after the first one has been taken out, and those that it holds have been put
in. -/
def visitFirst (f : Forest) (pending : Frontier Nat) : Frontier Nat :=
  match pending.next? with
  | none => pending
  | some (i, rest) => rest.schedule (f.held i)

/-- With every step of a traversal the trees that are pending lose one node. -/
theorem Sound.countAll_visitFirst (hf : f.Sound) {pending : Frontier Nat} {rest : List Nat}
    (h : pending.pending = i :: rest) :
    Tree.countAll ((f.visitFirst pending).pending.map f.tree) + 1 =
      Tree.countAll (pending.pending.map f.tree) := by
  have below : (f.tree i).count = 1 + Tree.countAll ((f.held i).map f.tree) := by
    rw [Tree.count_eq, hf.children_tree]
  have next : pending.next? = some (i, { pending with pending := rest }) := by
    simp only [Frontier.next?, h]
  rw [visitFirst, next, h, List.map_cons, Tree.countAll, below]
  cases hs : pending.strategy <;>
    simp only [Frontier.schedule, List.map_append, Tree.countAll_append] <;> omega

/-- **A traversal ends** after as many steps as there are nodes in the trees that were pending. -/
theorem Sound.pending_iterate_visitFirst (hf : f.Sound) (pending : Frontier Nat) :
    (f.visitFirst^[Tree.countAll (pending.pending.map f.tree)] pending).pending = [] := by
  generalize hn : Tree.countAll (pending.pending.map f.tree) = n
  induction n generalizing pending with
  | zero =>
    cases hp : pending.pending with
    | nil => exact hp
    | cons i rest =>
      have := hf.countAll_visitFirst hp
      omega
  | succ n ih =>
    cases hp : pending.pending with
    | nil => simp [hp, Tree.countAll] at hn
    | cons i rest =>
      have := hf.countAll_visitFirst hp
      rw [Function.iterate_succ_apply]
      exact ih _ (by omega)

/-! ## Whatever has been done -/

/-- The links of a forest are those of trees. -/
structure IsTreelike (f : Forest) : Prop where
  /-- What a directory holds are children of its own, and nothing else holds anything. -/
  own : ∀ i j, j ∈ f.held i → f.IsDirectory i ∧ f.parent? j = some i
  /-- No way up comes back. -/
  upwards : ∀ i, ¬ Relation.TransGen f.BelongsTo i i
  /-- The ancestors of a node stand on its way up, which has as many steps as the node is deep and
  ends at a node without a parent. -/
  lineage : ∀ i, ∃ ps, f.Lineage i ps ∧ (f.node i).ancestors = ps.map f.node ∧
    (f.node i).depth = ps.length
  /-- No way down comes back. -/
  downwards : ∀ i, ¬ Relation.TransGen f.Holds i i
  /-- Below a node stand the trees of the nodes that it holds. -/
  children : ∀ i, (f.node i).tree.children = (f.held i).map fun j => (f.node j).tree
  /-- What a way down leads to has its start on the way up. -/
  below : ∀ i j ps, Relation.ReflTransGen f.Holds i j → f.Lineage j ps → j = i ∨ i ∈ ps
  /-- Taking nodes out and putting those in that they hold comes to an end, in either order. -/
  traversal : ∀ pending, ∃ n, (f.visitFirst^[n] pending).pending = []

/-- Links that fit each other are those of trees. -/
theorem Sound.isTreelike (hf : f.Sound) : f.IsTreelike where
  own i j hj := ⟨hf.directory j i (hf.own i j hj), hf.own i j hj⟩
  upwards i h := Nat.lt_irrefl i (hf.lt_of_belongsTo h)
  lineage i := by
    obtain ⟨ps, hps⟩ := hf.exists_lineage i
    have ancestors := hf.ancestors_node hps
    refine ⟨ps, hps, ancestors, ?_⟩
    rw [Node.depth, ancestors, List.length_map]
  downwards i h := Nat.lt_irrefl i (hf.lt_of_holds h)
  children i := by
    rw [hf.tree_node, hf.children_tree]
    exact List.map_congr_left fun j _ => (hf.tree_node j).symm
  below _ _ _ h hps := hf.eq_or_mem_lineage h hps
  traversal pending := ⟨_, hf.pending_iterate_visitFirst pending⟩

/-- **However a forest has been made**, its links are those of trees. So every search from one of
its nodes ends, and one that is told by paths never finds a node outside, if it starts with nothing
pending, or with nodes at or below its start. A deed is rejected for a negative size or a foreign
child alone, and changes nothing. -/
theorem isTreelike_afterAll (h : empty.Possible ds) :
    let f := empty.afterAll ds
    f.IsTreelike ∧
      (∀ i (s : Search), (s.nodes (f.node i)).HasEnded ∧
        ((∀ n ∈ s.frontier.pending, n ∈ (f.node i).preorder) → (s.paths (f.node i)).HasEnded)) ∧
      (∀ kind p line name bytes e, (Deed.make kind p line name bytes).perform f = .error e ↔
        bytes < 0 ∧ e = .negativeSize bytes) ∧
      (∀ parent child e, (Deed.put parent child).perform f = .error e ↔
        f.parent? child ≠ some parent ∧ e = .foreignChild (f.node child) (f.node parent)) ∧
      ∀ d e, d.perform f = .error e → f.after d = f ∧ ∃ message, e.fault = .badValue message := by
  intro f
  have hf : f.Sound := sound_empty.afterAll h
  refine ⟨hf.isTreelike, fun i s => ⟨s.hasEnded_nodes _, Search.hasEnded_paths⟩,
    fun _ _ _ _ _ _ => perform_make_eq_error_iff, fun _ _ _ => perform_put_eq_error_iff,
    fun d e he => ⟨after_eq_of_error he, ?_⟩⟩
  cases e <;> exact ⟨_, rfl⟩

/-- A directory that is put into the root twice, and a file in it. A file with a negative size is
not made, and the file is not put into the root. -/
def heldTwice : List Deed := [
  .make .directory none [] [] 0,
  .make .directory (some 0) [] ['a'] 4096, .put 0 1, .put 0 1,
  .make .file (some 1) [] ['f'] (-1), .make .file (some 1) [] ['f'] 7, .put 0 2, .put 1 2]

/-- A directory that is held twice is no way back to the root. -/
theorem isTreelike_afterAll_heldTwice :
    let f := empty.afterAll heldTwice
    let files := Search.new (.kind .file) (.empty .breadthFirst)
    empty.Possible heldTwice ∧ f.held 0 = [1, 1] ∧ f.held 1 = [2] ∧ f.IsTreelike ∧
      (files.paths (f.node 0)).HasEnded := by
  intro f files
  have possible : empty.Possible heldTwice := by decide
  obtain ⟨treelike, searches, -⟩ := isTreelike_afterAll possible
  exact ⟨possible, by decide, by decide, treelike, (searches 0 files).2 nofun⟩

end DirectoryListing.Forest
