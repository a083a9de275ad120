import DirectoryListing.Proofs.Listing.Address
import DirectoryListing.Proofs.Node.Below
import Mathlib.Data.List.Induction
import Mathlib.Data.List.Nodup
import Mathlib.Data.List.Perm.Basic

/-!
# Nodes by their addresses

The nodes at and below a node are those that the addresses of its tree lead to, each by one address.
So a node is held once, by its parent, and comes once in pre-order.

## Main results

* `Node.mem_preorder_iff`: the nodes at and below a node are those that an address leads to
* `Node.follow_injective`: different addresses lead to different nodes
* `Node.relativePath_of_follow`: the path of a node from another one is made of these names
* `Node.nodup_preorder`: no node comes twice in pre-order
* `Node.exists_unique_parent`: each node below another is held once, by its parent
* `Node.preorder_perm`: pre-order is a node and the children of all nodes there
* `Node.preorder_perm_flatMap`: only the nodes that hold some are needed
-/

namespace DirectoryListing.Node

variable {n m k c start : Node} {a b address : Tree.Address}

/-! ## Addresses -/

@[simp] theorem follow_nil (n : Node) : n.follow [] = some n := rfl

theorem follow_cons (n : Node) (i : Nat) (a : Tree.Address) :
    n.follow (i :: a) = n.children[i]?.bind (follow · a) := by
  rw [follow]
  cases n.children[i]? <;> rfl

theorem follow_append (n : Node) (a b : Tree.Address) :
    n.follow (a ++ b) = (n.follow a).bind (follow · b) := by
  induction a generalizing n with
  | nil => rfl
  | cons i a ih =>
    rw [List.cons_append, follow_cons, follow_cons]
    cases n.children[i]? with
    | none => rfl
    | some c => exact ih c

theorem getElem?_children (n : Node) (i : Nat) :
    n.children[i]? = n.tree.children[i]?.map (under n (.held i)) := by
  rw [children, List.getElem?_mapIdx]

/-- An address leads to a node with the tree that is there. -/
theorem map_tree_follow (n : Node) (a : Tree.Address) : (n.follow a).map tree = n.tree.at? a := by
  induction a generalizing n with
  | nil => rfl
  | cons i a ih =>
    rw [follow_cons, Tree.at?_cons, getElem?_children]
    cases n.tree.children[i]? with
    | none => rfl
    | some t => exact ih (under n (.held i) t)

/-- What an address leads to in the tree of a node is the tree of a node. -/
theorem exists_follow {t : Tree} (h : n.tree.at? a = some t) :
    ∃ m, n.follow a = some m ∧ m.tree = t :=
  Option.map_eq_some_iff.mp ((map_tree_follow n a).trans h)

theorem positions_of_follow (h : n.follow a = some m) :
    m.positions = n.positions ++ a.map Int.ofNat := by
  induction a generalizing n with
  | nil =>
    cases h
    exact (List.append_nil _).symm
  | cons i a ih =>
    rw [follow_cons, getElem?_children] at h
    obtain ⟨c, hc, hm⟩ := Option.bind_eq_some_iff.mp h
    obtain ⟨t, -, rfl⟩ := Option.map_eq_some_iff.mp hc
    rw [ih hm, positions, List.append_assoc]
    rfl

/-- **Different addresses** lead to different nodes. -/
theorem follow_injective (ha : n.follow a = some m) (hb : n.follow b = some m) : a = b := by
  have heq : a.map Int.ofNat = b.map Int.ofNat := by
    apply List.append_cancel_left
    rw [← positions_of_follow ha, ← positions_of_follow hb]
  exact List.map_injective_iff.mpr (fun _ _ => Int.ofNat.inj) heq

/-- **The nodes at and below a node** are those that an address leads to. -/
theorem mem_preorder_iff : m ∈ n.preorder ↔ ∃ a, n.follow a = some m := by
  constructor
  · apply forall_mem_preorder
    · exact ⟨[], rfl⟩
    · rintro m c ⟨a, ha⟩ hc
      obtain ⟨i, hi⟩ := List.mem_iff_getElem?.mp hc
      refine ⟨a ++ [i], ?_⟩
      rw [follow_append, ha, Option.bind_some, follow_cons, hi]
      rfl
  · rintro ⟨a, ha⟩
    induction a generalizing n with
    | nil =>
      cases ha
      exact mem_preorder_self m
    | cons i a ih =>
      rw [follow_cons] at ha
      obtain ⟨c, hc, hm⟩ := Option.bind_eq_some_iff.mp ha
      exact mem_preorder_of_mem_children (List.mem_of_getElem? hc) (ih hm)

/-! ## Paths -/

theorem depth_of_follow (h : n.follow a = some m) : m.depth = n.depth + a.length := by
  induction a generalizing n with
  | nil =>
    cases h
    rfl
  | cons i a ih =>
    rw [follow_cons] at h
    obtain ⟨c, hc, hm⟩ := Option.bind_eq_some_iff.mp h
    rw [ih hm, depth_of_mem_children (List.mem_of_getElem? hc), List.length_cons]
    omega

/-- A node has one depth. -/
theorem depth_eq_of_same (h : m.same n = true) : m.depth = n.depth := by
  induction m generalizing n with
  | top mark t =>
    cases n with
    | top mark' t' => rfl
    | under p slot t' => cases h
  | under p slot t ih =>
    cases n with
    | top mark' t' => cases h
    | under p' slot' t' =>
      rw [same, Bool.and_eq_true] at h
      rw [depth_under, depth_under, ih h.2]

/-- The way up from a node to another leads over the names on the way down. -/
theorem namesUpTo_of_follow (h : start.follow a = some n) :
    namesUpTo start n = some (start.tree.namesTo a).reverse := by
  induction a using List.reverseRecOn generalizing n with
  | nil =>
    cases h
    exact namesUpTo_self start
  | append_singleton a i ih =>
    have deeper := depth_of_follow h
    have hat := map_tree_follow start (a ++ [i])
    rw [h, Option.map_some] at hat
    rw [follow_append] at h
    obtain ⟨m, hm, hn⟩ := Option.bind_eq_some_iff.mp h
    rw [follow_cons, getElem?_children] at hn
    obtain ⟨c, hc, hn⟩ := Option.bind_eq_some_iff.mp hn
    obtain ⟨t, -, rfl⟩ := Option.map_eq_some_iff.mp hc
    cases hn
    -- the node lies deeper than the other, so it is not the other itself
    have apart : ¬ (under m (.held i) t).same start = true := fun hsame => by
      rw [depth_eq_of_same hsame, List.length_append, List.length_singleton] at deeper
      omega
    rw [namesUpTo, if_neg apart, ih hm, Tree.namesTo_concat hat.symm, List.reverse_append]
    rfl

/-- **The path of a node from another one** is made of the names on the way to it. -/
theorem relativePath_of_follow (h : start.follow a = some n) (hne : a ≠ []) :
    n.relativePath start = .ok (Path.ofSegments (start.tree.namesTo a)) := by
  have way : start.tree.namesTo a ≠ [] := by
    have hat := map_tree_follow start a
    rw [h, Option.map_some] at hat
    exact mt (Tree.namesTo_eq_nil_iff hat.symm).mp hne
  obtain ⟨x, xs, hup⟩ := List.exists_cons_of_ne_nil (List.reverse_ne_nil_iff.mpr way)
  rw [relativePath, namesUpTo_of_follow h, hup]
  show Except.ok (Path.ofSegments (x :: xs).reverse) = _
  rw [← hup, List.reverse_reverse]

/-- The path of a node from the root of a tree is made of the names on the way to it. -/
theorem relativePath_ofTree {t : Tree} (h : (ofTree t).follow a = some n) (hne : a ≠ []) :
    n.relativePath (ofTree t) = .ok (Path.ofSegments (t.namesTo a)) :=
  relativePath_of_follow h hne

/-! ## Parents -/

theorem parent?_of_mem_children (h : c ∈ n.children) : c.parent? = some n := by
  obtain ⟨slot, t, rfl⟩ := exists_under_of_mem_children h
  rfl

/-- A node with children is a directory. -/
theorem isDirectory_of_mem_children (h : c ∈ n.children) : n.isDirectory = true := by
  obtain ⟨i, hi, -⟩ := List.mem_mapIdx.mp h
  unfold isDirectory kind
  cases ht : n.tree with
  | file e => simp [ht, Tree.children] at hi
  | directory e ts => rfl

/-- **Each node below another** is a child of one that lies there. -/
theorem exists_parent (h : m ∈ n.preorder) (hne : m ≠ n) : ∃ p ∈ n.preorder, m ∈ p.children := by
  suffices ∀ m ∈ n.preorder, m ∈ n.preorder ∧ (m ≠ n → ∃ p ∈ n.preorder, m ∈ p.children) from
    (this m h).2 hne
  apply forall_mem_preorder
  · exact ⟨mem_preorder_self n, fun h => absurd rfl h⟩
  · exact fun p c hp hc => ⟨children_mem_preorder hp.1 hc, fun _ => ⟨p, hp.1, hc⟩⟩

/-! ## No node twice -/

theorem nodup_children (n : Node) : n.children.Nodup := by
  refine List.pairwise_iff_getElem.mpr fun i j hi hj hlt heq => ?_
  have left : n.follow [i] = some n.children[i] := by
    rw [follow_cons, List.getElem?_eq_getElem hi]
    rfl
  have right : n.follow [j] = some n.children[j] := by
    rw [follow_cons, List.getElem?_eq_getElem hj]
    rfl
  have same : [i] = [j] := follow_injective left (heq ▸ right)
  exact absurd (List.head_eq_of_cons_eq same) (Nat.ne_of_lt hlt)

/-- The addresses of what lies at and below a child begin with the position of the child. -/
theorem exists_follow_cons {i : Nat} (hi : i < n.children.length)
    (hm : m ∈ n.children[i].preorder) : ∃ a, n.follow (i :: a) = some m := by
  obtain ⟨a, ha⟩ := mem_preorder_iff.mp hm
  exact ⟨a, by rwa [follow_cons, List.getElem?_eq_getElem hi]⟩

/-- **No node comes twice in pre-order.** -/
theorem nodup_preorder (n : Node) : n.preorder.Nodup := by
  induction n using preorder.induct with
  | case1 n ih =>
    rw [preorder_eq, List.nodup_cons, List.nodup_iff_pairwise_ne, List.pairwise_flatMap]
    refine ⟨fun hn => ?_, ih, List.pairwise_iff_getElem.mpr fun i j hi hj hlt x hx y hy hxy => ?_⟩
    -- nothing below the node has the address of the node itself
    · obtain ⟨c, hc, hm⟩ := List.mem_flatMap.mp hn
      obtain ⟨i, hi, rfl⟩ := List.mem_iff_getElem.mp hc
      obtain ⟨a, ha⟩ := exists_follow_cons hi hm
      cases follow_injective ha (follow_nil n)
    -- below different children addresses differ in their first position
    · obtain ⟨a, ha⟩ := exists_follow_cons hi hx
      obtain ⟨b, hb⟩ := exists_follow_cons hj hy
      have same : i :: a = j :: b := follow_injective ha (hxy ▸ hb)
      exact absurd (List.head_eq_of_cons_eq same) (Nat.ne_of_lt hlt)

/-- **Each node below another is held once**, by the directory that is its parent. -/
theorem exists_unique_parent (h : m ∈ n.preorder) (hne : m ≠ n) :
    ∃ p ∈ n.preorder, m.parent? = some p ∧ p.isDirectory = true ∧ p.children.count m = 1 ∧
      ∀ q : Node, m ∈ q.children → q = p := by
  obtain ⟨p, hp, hm⟩ := exists_parent h hne
  have hparent := parent?_of_mem_children hm
  refine ⟨p, hp, hparent, isDirectory_of_mem_children hm,
    List.count_eq_one_of_mem (nodup_children p) hm, fun q hq => ?_⟩
  exact Option.some.inj ((parent?_of_mem_children hq).symm.trans hparent)

/-- **Pre-order** is a node, and the children of all nodes there. -/
theorem preorder_perm (n : Node) : n.preorder.Perm (n :: n.preorder.flatMap children) := by
  induction n using preorder.induct with
  | case1 n ih =>
    rw [preorder_eq]
    apply List.Perm.cons
    calc List.Perm (n.children.flatMap preorder)
            (n.children.flatMap fun c => c :: c.preorder.flatMap children) :=
          List.Perm.flatMap_left _ ih
      List.Perm _ (n.children.map id ++ n.children.flatMap fun c => c.preorder.flatMap children) :=
          (List.map_append_flatMap_perm _ _ _).symm
      _ = (n :: n.children.flatMap preorder).flatMap children := by
          rw [List.map_id, List.flatMap_cons, List.flatMap_assoc]

/-- **Pre-order from the nodes that hold any**: it is enough to go through these. -/
theorem preorder_perm_flatMap {holders : List Node} (hnodup : holders.Nodup)
    (hmem : ∀ d ∈ holders, d ∈ n.preorder)
    (hempty : ∀ d ∈ n.preorder, d ∉ holders → d.children = []) :
    n.preorder.Perm (n :: holders.flatMap children) := by
  have hold : (n.preorder.filter (· ∈ holders)).Perm holders := by
    rw [List.perm_ext_iff_of_nodup ((nodup_preorder n).filter _) hnodup]
    intro d
    rw [List.mem_filter, decide_eq_true_eq]
    exact ⟨And.right, fun hd => ⟨hmem d hd, hd⟩⟩
  have rest : ∀ ds : List Node, (∀ d ∈ ds, d ∉ holders → d.children = []) →
      ds.flatMap children = (ds.filter (· ∈ holders)).flatMap children := by
    intro ds hds
    induction ds with
    | nil => rfl
    | cons d ds ih =>
      obtain ⟨hd, hds⟩ := List.forall_mem_cons.mp hds
      rw [List.flatMap_cons, List.filter_cons, ih hds]
      split
      · rfl
      · rename_i hout
        rw [hd (by simpa using hout), List.nil_append]
  refine (preorder_perm n).trans (.cons n ?_)
  rw [rest n.preorder hempty]
  exact hold.flatMap_right children

end DirectoryListing.Node
