import DirectoryListing.Search

/-!
# The order of a traversal

A traversal takes the next node out of its frontier and puts the children of that node in, until
nothing is pending. The order in which the nodes come out is settled here for both strategies, for
any number of pending nodes and any trees below them.

## Main definitions

* `Frontier.order f`: the nodes in the order in which they come out of a frontier
* `Node.level ns k`: the nodes that lie `k` steps below some nodes
* `Node.levelOrder ns`: level by level, all nodes at and below some nodes

## Main results

* `Frontier.order_depthFirst`: into depth, it is the pre-order of one pending node after the other
* `Frontier.order_breadthFirst`: by levels, it is one level of the pending nodes after the other
* `Frontier.order_perm`: either way, it is all that lies at and below the pending nodes
* `Node.level_eq_nil`: some nodes have no more levels than there are nodes at and below them
* `Node.pairwise_depth_levelOrder`: level by level below one node, depths never decrease
-/

namespace DirectoryListing

namespace Node

/-- A node comes first and is followed by what lies at and below each of its children, in order. -/
theorem preorder_eq (n : Node) : n.preorder = n :: n.children.flatMap preorder := by
  rw [preorder]
  congr 1
  simp only [List.flatMap_subtype, List.unattach_attach]

theorem weight_pos (n : Node) : 0 < n.weight :=
  Nat.zero_lt_of_lt n.weight_children_lt

/-- A node, and all below its children, make up what lies at and below it. -/
theorem weight_eq (n : Node) : n.weight = 1 + totalWeight n.children := by
  rw [totalWeight, map_tree_children, weight, Tree.count_eq]

theorem totalWeight_eq_zero {ns : List Node} : totalWeight ns = 0 ↔ ns = [] := by
  cases ns with
  | nil => simp
  | cons n ns =>
    have := n.weight_pos
    simp only [totalWeight_cons, reduceCtorEq, iff_false]
    omega

/-! ## Levels -/

/-- Level zero of some nodes is these nodes; every further level holds the children of the nodes of
the level before it, in order. -/
def level (ns : List Node) : Nat → List Node
  | 0 => ns
  | k + 1 => (level ns k).flatMap children

/-- All levels of some nodes, one after the other. -/
def levelOrder (ns : List Node) : List Node :=
  (List.range (totalWeight ns)).flatMap (level ns)

/-- The levels below some nodes are those of their children. -/
theorem level_succ (ns : List Node) (k : Nat) :
    level ns (k + 1) = level (ns.flatMap children) k := by
  induction k with
  | zero => rfl
  | succ k ih => rw [level, ih, level]

theorem totalWeight_flatMap_children (ns : List Node) :
    totalWeight (ns.flatMap children) + ns.length = totalWeight ns := by
  induction ns with
  | nil => rfl
  | cons n ns ih =>
    rw [List.flatMap_cons, totalWeight_append, totalWeight_cons, weight_eq, List.length_cons]
    omega

/-- Below some nodes there is less than at and below them. -/
theorem totalWeight_flatMap_children_le {ns : List Node} {k : Nat} (h : totalWeight ns ≤ k + 1) :
    totalWeight (ns.flatMap children) ≤ k := by
  have hsum := totalWeight_flatMap_children ns
  rcases ns with _ | ⟨n, ns⟩
  · exact Nat.zero_le k
  · rw [List.length_cons] at hsum
    omega

/-- There are no more levels than nodes, so no level is left out of the level order. -/
theorem level_eq_nil {ns : List Node} {k : Nat} (h : totalWeight ns ≤ k) : level ns k = [] := by
  induction k generalizing ns with
  | zero => exact totalWeight_eq_zero.mp (Nat.le_zero.mp h)
  | succ k ih =>
    rw [level_succ]
    exact ih (totalWeight_flatMap_children_le h)

theorem depth_of_mem_children {n c : Node} (h : c ∈ n.children) : c.depth = n.depth + 1 := by
  obtain ⟨i, hi, rfl⟩ := List.mem_mapIdx.mp h
  exact depth_under n (.held i) _

theorem depth_of_mem_level {n m : Node} {k : Nat} (h : m ∈ level [n] k) :
    m.depth = n.depth + k := by
  induction k generalizing m with
  | zero => rw [List.mem_singleton.mp h, Nat.add_zero]
  | succ k ih =>
    obtain ⟨p, hp, hm⟩ := List.mem_flatMap.mp h
    rw [depth_of_mem_children hm, ih hp, Nat.add_assoc]

/-- **Depths never decrease** from one level below a node to the next. -/
theorem pairwise_depth_levelOrder (n : Node) :
    (levelOrder [n]).Pairwise fun a b => a.depth ≤ b.depth := by
  refine List.pairwise_flatMap.mpr ⟨fun k _ => ?_, ?_⟩
  · refine List.Pairwise.imp_of_mem (fun ha hb _ => ?_) (List.pairwise_of_forall fun _ _ => trivial)
    exact Nat.le_of_eq ((depth_of_mem_level ha).trans (depth_of_mem_level hb).symm)
  · refine List.pairwise_lt_range.imp fun hlt a ha b hb => ?_
    rw [depth_of_mem_level ha, depth_of_mem_level hb]
    omega

end Node

namespace Frontier

open Node

variable {f : Frontier Node} {n : Node} {ns : List Node}

/-! ## Orders -/

/-- The nodes in the order in which they come out of a frontier, when the children of each are put
in before the next one is taken. -/
def order (f : Frontier Node) : List Node :=
  match _h : f.pending with
  | [] => []
  | n :: rest => n :: order (schedule { f with pending := rest } n.children)
termination_by totalWeight f.pending
decreasing_by
  have := n.weight_children_lt
  rw [Search.weight_schedule, _h, totalWeight_cons]
  dsimp only
  omega

theorem order_of_nil (h : f.pending = []) : f.order = [] := by
  rw [order]
  split
  · rfl
  · rename_i h'
    cases h.symm.trans h'

theorem order_of_cons (h : f.pending = n :: ns) :
    f.order = n :: (schedule { f with pending := ns } n.children).order := by
  rw [order]
  split
  · rename_i h'
    cases h.symm.trans h'
  · rename_i h'
    cases h.symm.trans h'
    rfl

theorem order_eq_nil_iff : f.order = [] ↔ f.pending = [] := by
  refine ⟨fun h => ?_, order_of_nil⟩
  cases hp : f.pending with
  | nil => rfl
  | cons n rest => cases (order_of_cons hp).symm.trans h

/-- The first node that comes out is the first one pending, and what comes out after it is what
comes out when its children have been put in. -/
theorem exists_of_order_eq_cons (h : f.order = n :: ns) : ∃ rest, f.pending = n :: rest ∧
    (schedule { f with pending := rest } n.children).order = ns := by
  cases hp : f.pending with
  | nil => cases (order_of_nil hp).symm.trans h
  | cons m rest =>
    obtain ⟨rfl, hlater⟩ := List.cons.inj ((order_of_cons hp).symm.trans h)
    exact ⟨rest, rfl, hlater⟩

/-- **Into depth** the nodes come out in pre-order, one pending node after the other. -/
theorem order_depthFirst (hs : f.strategy = .depthFirst) :
    f.order = f.pending.flatMap preorder := by
  induction f using order.induct with
  | case1 f h => rw [order_of_nil h, h, List.flatMap_nil]
  | case2 f n rest h ih =>
    -- the children of the node that comes out stand before all that was pending
    have hp : (schedule { f with pending := rest } n.children).pending = n.children ++ rest := by
      simp only [schedule, hs]
    rw [order_of_cons h, ih ((strategy_schedule _ _).trans hs), hp, h, List.flatMap_append,
      List.flatMap_cons, preorder_eq, List.cons_append]

/-- By levels, what is pending comes out before any child of it. -/
theorem order_breadthFirst_append (ns ms : List Node) :
    order ⟨.breadthFirst, ns ++ ms⟩ = ns ++ order ⟨.breadthFirst, ms ++ ns.flatMap children⟩ := by
  induction ns generalizing ms with
  | nil => simp
  | cons n ns ih =>
    calc order ⟨.breadthFirst, n :: ns ++ ms⟩
        = n :: order ⟨.breadthFirst, ns ++ ms ++ n.children⟩ := order_of_cons rfl
      _ = n :: (ns ++ order ⟨.breadthFirst, ms ++ n.children ++ ns.flatMap children⟩) := by
        rw [List.append_assoc, ih]
      _ = n :: ns ++ order ⟨.breadthFirst, ms ++ (n :: ns).flatMap children⟩ := by
        rw [List.flatMap_cons, List.append_assoc, List.cons_append]

/-- **By levels** the nodes come out one level of the pending ones after the other. -/
theorem order_breadthFirst (ns : List Node) : order ⟨.breadthFirst, ns⟩ = levelOrder ns := by
  suffices ∀ h (ns : List Node), totalWeight ns ≤ h →
      order ⟨.breadthFirst, ns⟩ = (List.range h).flatMap (level ns) from
    this _ ns (Nat.le_refl _)
  intro h
  induction h with
  | zero =>
    intro ns hle
    rw [totalWeight_eq_zero.mp (Nat.le_zero.mp hle)]
    exact order_of_nil rfl
  | succ h ih =>
    intro ns hle
    have hchildren := totalWeight_flatMap_children_le hle
    -- a whole level comes out, and then the levels below it
    calc order ⟨.breadthFirst, ns⟩
        = ns ++ order ⟨.breadthFirst, ns.flatMap children⟩ := by
          simpa using order_breadthFirst_append ns []
      _ = ns ++ (List.range h).flatMap (level (ns.flatMap children)) := by rw [ih _ hchildren]
      _ = level ns 0 ++ (List.range h).flatMap (fun k => level ns (k + 1)) := by
        rw [← funext (level_succ ns), level]
      _ = (List.range (h + 1)).flatMap (level ns) := by
        rw [List.range_succ_eq_map, List.flatMap_cons, List.flatMap_map]

/-- **All comes out**: whatever the strategy, a traversal comes upon the nodes at and below the
pending ones, each as often as they lie there. -/
theorem order_perm (f : Frontier Node) : f.order.Perm (f.pending.flatMap preorder) := by
  induction f using order.induct with
  | case1 f h => rw [order_of_nil h, h, List.flatMap_nil]
  | case2 f n rest h ih =>
    rw [order_of_cons h, h, List.flatMap_cons, preorder_eq, List.cons_append]
    refine List.Perm.cons n (ih.trans ?_)
    refine ((perm_pending_schedule _ _).flatMap_right preorder).trans ?_
    rw [List.flatMap_append]
    exact List.perm_append_comm

theorem mem_order {m : Node} : m ∈ f.order ↔ ∃ n ∈ f.pending, m ∈ n.preorder := by
  rw [f.order_perm.mem_iff, List.mem_flatMap]

/-- A traversal comes upon as many nodes as lie at and below the pending ones. -/
theorem length_order (f : Frontier Node) : f.order.length = totalWeight f.pending := by
  induction f using order.induct with
  | case1 f h => rw [order_of_nil h, h, List.length_nil, totalWeight_nil]
  | case2 f n rest h ih =>
    rw [order_of_cons h, h, List.length_cons, ih, Search.weight_schedule, totalWeight_cons,
      weight_eq]
    dsimp only
    omega

end Frontier

end DirectoryListing
