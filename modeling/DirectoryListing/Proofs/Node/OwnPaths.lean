import DirectoryListing.Proofs.Node.Addresses
import DirectoryListing.Proofs.Node.Resolution

/-!
# Nodes told apart by their paths

Where siblings share a name, a path leads to the first of them only; and a name that holds a slash,
or is a dot, reads as something else in a path. Where no directory has such children, the path of a
node from another one leads down to the node again. So different nodes have different paths, and
only the node that the paths are seen from has the dot for its own.

## Main definitions

* `Node.NamesApart start`: the names of children, everywhere at and below a node, tell them apart

## Main results

* `Node.NamesApart.descend_pathFrom`: the path of a node below another one leads down to it
* `Node.NamesApart.pathFrom_injective`: no two nodes below another one have the same path
-/

namespace DirectoryListing.Node

variable {root start m n c : Node} {a : Tree.Address} {p last x : Text} {ch : Char}

/-- The children of each directory at and below a node have different names, and no name is a dot or
holds a slash. -/
structure NamesApart (start : Node) : Prop where
  nodup : ∀ d ∈ start.preorder, (d.children.map name).Nodup
  plain : ∀ d ∈ start.preorder, ∀ c ∈ d.children, c.name ≠ ['.'] ∧ '/' ∉ c.name

theorem NamesApart.of_mem_preorder (h : root.NamesApart) (hs : start ∈ root.preorder) :
    start.NamesApart :=
  ⟨fun d hd => h.nodup d (mem_preorder_trans hs d hd),
    fun d hd => h.plain d (mem_preorder_trans hs d hd)⟩

/-! ## Ways down -/

/-- Among children of different names, each is found by its own. -/
theorem child_of_nodup (h : (n.children.map name).Nodup) (hc : c ∈ n.children) :
    n.child c.name = .ok c := by
  obtain ⟨before, after, hchildren⟩ := List.append_of_mem hc
  refine child_eq_ok_iff.mpr ⟨before, after, hchildren, rfl, fun b hb heq => ?_⟩
  rw [hchildren, List.map_append, List.nodup_append] at h
  exact h.2.2 b.name (List.mem_map_of_mem hb) c.name List.mem_cons_self heq

/-- The way to a node below leads through a child, whose name comes first. -/
theorem exists_child_of_follow {i : Nat} (h : start.follow (i :: a) = some n) :
    ∃ c ∈ start.children, c.follow a = some n ∧
      start.tree.namesTo (i :: a) = c.name :: c.tree.namesTo a := by
  rw [follow_cons] at h
  obtain ⟨c, hc, hn⟩ := Option.bind_eq_some_iff.mp h
  refine ⟨c, List.mem_of_getElem? hc, hn, ?_⟩
  rw [getElem?_children] at hc
  obtain ⟨t, ht, rfl⟩ := Option.map_eq_some_iff.mp hc
  rw [Tree.namesTo, ht]
  rfl

/-- The names on the way to a node are names of children. -/
theorem exists_child_of_mem_namesTo (h : start.follow a = some n)
    (hx : x ∈ start.tree.namesTo a) : ∃ d ∈ start.preorder, ∃ c ∈ d.children, c.name = x := by
  induction a generalizing start with
  | nil => cases hx
  | cons i a ih =>
    obtain ⟨c, hc, hn, way⟩ := exists_child_of_follow h
    rw [way] at hx
    rcases List.mem_cons.mp hx with rfl | hx
    · exact ⟨start, mem_preorder_self start, c, hc, rfl⟩
    · obtain ⟨d, hd, found⟩ := ih hn hx
      exact ⟨d, mem_preorder_of_mem_children hc hd, found⟩

/-- The names on the way to a node lead there, child by child. -/
theorem NamesApart.walk_namesTo (h : start.NamesApart) (ha : start.follow a = some n)
    (p last : Text) : walk p last start (start.tree.namesTo a) = .ok n := by
  induction a generalizing start last with
  | nil =>
    cases ha
    rfl
  | cons i a ih =>
    obtain ⟨c, hc, hn, way⟩ := exists_child_of_follow ha
    -- the child is the only one of its name, so the search for the name comes to it
    have first := child_of_nodup (h.nodup start (mem_preorder_self start)) hc
    rw [way, walk, if_pos (isDirectory_of_mem_children hc), first]
    exact ih (h.of_mem_preorder (mem_preorder_of_mem_children hc (mem_preorder_self c))) hn c.name

/-! ## Paths -/

theorem pathFrom_self (n : Node) : pathFrom n n = ['.'] := by
  rw [pathFrom, relativePath, namesUpTo_self]

/-- **The path of a node below another one leads down to it**, and is not a dot. -/
theorem NamesApart.descend_pathFrom (h : start.NamesApart) (hn : n ∈ start.preorder)
    (hne : n ≠ start) :
    start.isDirectory = true ∧ pathFrom start n ≠ ['.'] ∧
      start.descend (pathFrom start n) = .ok n := by
  obtain ⟨a, ha⟩ := mem_preorder_iff.mp hn
  cases a with
  | nil => exact absurd (Option.some.inj ha).symm hne
  | cons i a =>
    obtain ⟨c, hc, -, way⟩ := exists_child_of_follow ha
    have path : pathFrom start n = Path.ofSegments (start.tree.namesTo (i :: a)) := by
      rw [pathFrom, relativePath_of_follow ha (List.cons_ne_nil i a)]
    have plain : ∀ x ∈ start.tree.namesTo (i :: a), x ≠ ['.'] ∧ '/' ∉ x := by
      intro x hx
      obtain ⟨d, hd, k, hk, rfl⟩ := exists_child_of_mem_namesTo ha hx
      exact h.plain d hd k hk
    have segments : Path.segments (pathFrom start n) = start.tree.namesTo (i :: a) := by
      rw [path]
      exact Path.segments_ofSegments (way ▸ List.cons_ne_nil _ _) fun x hx => (plain x hx).2
    refine ⟨isDirectory_of_mem_children hc, fun dot => ?_, ?_⟩
    · -- a dot is a single segment, and would be the name of the child
      rw [dot, way] at segments
      obtain ⟨name, -⟩ := List.cons.inj segments
      exact (plain c.name (way ▸ List.mem_cons_self)).1 name.symm
    · rw [descend, segments]
      exact h.walk_namesTo ha _ _

/-- Only the node itself has the dot for its path. -/
theorem NamesApart.pathFrom_eq_dot_iff (h : start.NamesApart) (hn : n ∈ start.preorder) :
    pathFrom start n = ['.'] ↔ n = start := by
  constructor
  · intro dot
    by_contra hne
    exact (h.descend_pathFrom hn hne).2.1 dot
  · rintro rfl
    exact pathFrom_self n

/-- **Different nodes have different paths.** -/
theorem NamesApart.pathFrom_injective (h : start.NamesApart) (hm : m ∈ start.preorder)
    (hn : n ∈ start.preorder) (heq : pathFrom start m = pathFrom start n) : m = n := by
  by_cases hs : n = start
  · rw [hs, pathFrom_self] at heq
    exact ((h.pathFrom_eq_dot_iff hm).mp heq).trans hs.symm
  · have hms : m ≠ start := by
      rintro rfl
      rw [pathFrom_self] at heq
      exact hs ((h.pathFrom_eq_dot_iff hn).mp heq.symm)
    -- below the start, one path leads to one node
    have leads := (h.descend_pathFrom hm hms).2.2
    rw [heq, (h.descend_pathFrom hn hs).2.2] at leads
    exact (Except.ok.inj leads).symm

/-- The path of a node below another one holds characters of names, besides its slashes or its
dot. -/
theorem mem_pathFrom {t : Tree} (hs : start ∈ (ofTree t).preorder) (hn : n ∈ start.preorder)
    (hc : ch ∈ pathFrom start n) :
    ch = '.' ∨ ch = '/' ∨ ∃ m ∈ (ofTree t).preorder, ch ∈ m.name := by
  obtain ⟨-, dot | ⟨xs, -, hxs, path⟩⟩ := relativePath_of_mem_preorder hn
  · rw [dot] at hc
    exact .inl (List.mem_singleton.mp hc)
  · rw [path] at hc
    refine .inr ((Path.mem_ofSegments hc).imp_right ?_)
    rintro ⟨x, hx, hch⟩
    obtain ⟨m, hm, rfl⟩ := namedIn_namesUpward (mem_preorder_trans hs n hn) x (hxs x hx)
    exact ⟨m, hm, hch⟩

end DirectoryListing.Node
