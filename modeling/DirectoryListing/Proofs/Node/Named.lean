import DirectoryListing.Proofs.Node.Below
import DirectoryListing.Proofs.Path.Names

/-!
# Nodes that their paths lead to

Not every node is found by its path: a name may be that of an earlier sibling, or stand for another
name. But a node that some path leads to, from wherever the path is seen, is found by its own path
as well. For a path is made names first, and the names that have led to the node are its own.

## Main definitions

* `Node.IsNamed root n`: the names of a node stand for themselves and lead to it

## Main results

* `Node.isNamed_of_resolve`: a node that a path leads to is named
* `Node.IsNamed.descend_eq`: it is the root, or found below it by its path without the first slash
* `Node.IsNamed.resolve_path`: it is found by its path from everywhere
-/

namespace DirectoryListing.Node

variable {root n m : Node} {p p' last last' : Text} {xs : List Text} {cwd : Option Node}

/-! ## Ways down by names -/

/-- Where a way down leads does not depend on how its errors are told. -/
theorem walk_congr (h : walk p last n xs = .ok m) (p' last' : Text) :
    walk p' last' n xs = .ok m := by
  induction xs generalizing n last last' with
  | nil => exact h
  | cons x xs ih =>
    rw [walk] at h ⊢
    split at h
    · next hd =>
      rw [if_pos hd]
      split at h
      · exact ih h x
      · cases h
    · cases h

/-- The names of a node are those of the node above, and those on the way down from there. -/
theorem names_of_walk (h : walk p last n xs = .ok m) : m.names = n.names ++ xs := by
  induction xs generalizing n last with
  | nil =>
    cases h
    exact (List.append_nil _).symm
  | cons x xs ih =>
    rw [walk] at h
    split at h
    · split at h
      · rename_i c hc
        obtain ⟨hmem, rfl⟩ := child_eq_ok hc
        obtain ⟨slot, t, rfl⟩ := exists_under_of_mem_children hmem
        rw [ih h, names, namesUpward, List.reverse_cons, List.append_assoc]
        rfl
      · cases h
    · cases h

/-! ## Named nodes -/

/-- The names of a node stand for themselves, and lead to it from the root. -/
structure IsNamed (root n : Node) : Prop where
  names : ∀ x ∈ n.names, Path.IsName x
  walk : ∀ p last, walk p last root n.names = .ok n

theorem isNamed_ofTree (t : Tree) : (ofTree t).IsNamed (ofTree t) :=
  ⟨nofun, fun _ _ => rfl⟩

/-- A path leads to a node along the names of the node. -/
theorem names_of_resolve {mark : Nat} {t : Tree} (h : (top mark t).resolve p cwd = .ok n) :
    n.names = Path.names (Path.join ((cwd.map path).getD Path.root) p) := by
  rw [resolve_eq] at h
  exact names_of_walk h

/-- **A node that a path leads to** is named. -/
theorem isNamed_of_resolve {mark : Nat} {t : Tree} (h : (top mark t).resolve p cwd = .ok n) :
    (top mark t).IsNamed n := by
  have names := names_of_resolve h
  rw [resolve_eq] at h
  constructor
  · rw [names]
    exact fun x hx => Path.isName_of_mem_names hx
  · rw [names]
    exact walk_congr h

/-- A path of names without slashes at their ends is made of them. -/
theorem path_eq_of_isTrimmed (h : ∀ x ∈ n.names, Path.IsTrimmed x) :
    n.path = Path.root ++ Path.ofSegments n.names := by
  rw [path]
  rcases hn : n.names with _ | ⟨x, xs⟩
  · rfl
  · rw [hn] at h
    rw [Path.foldl_join (List.cons_ne_nil x xs) h, Path.join_ofSegments h]
    rfl

/-- A path of names that stand for themselves is made of them. -/
theorem path_eq_of_isName (h : ∀ x ∈ n.names, Path.IsName x) :
    n.path = Path.root ++ Path.ofSegments n.names :=
  path_eq_of_isTrimmed fun x hx => (h x hx).toIsSegment.isTrimmed

/-- The path of a node leads through the names of the node, when they stand for themselves. -/
theorem names_path (h : ∀ x ∈ n.names, Path.IsName x) : Path.names n.path = n.names := by
  rw [path_eq_of_isName h, Path.names_root_append h]

theorem IsNamed.descend_eq (h : root.IsNamed n) :
    n = root ∨ ∃ p, n.path = '/' :: p ∧ root.descend p = .ok n := by
  rcases hn : n.names with _ | ⟨x, xs⟩
  · have here := h.walk [] []
    rw [hn] at here
    exact .inl (Except.ok.inj here).symm
  · refine .inr ⟨Path.ofSegments n.names, path_eq_of_isName h.names, ?_⟩
    have plain : ∀ x ∈ n.names, '/' ∉ x := fun x hx => (h.names x hx).slash
    rw [descend, Path.segments_ofSegments (by rw [hn]; exact List.cons_ne_nil x xs) plain]
    exact h.walk _ _

/-- **The path of a named node** leads to it from everywhere. -/
theorem IsNamed.resolve_path (h : root.IsNamed n) (cwd : Option Node) :
    root.resolve n.path cwd = .ok n := by
  have absolute : ∀ base, Path.join base n.path = n.path := fun base => by
    rw [Path.join, if_pos n.head?_path]
  rw [resolve_eq, absolute, names_path h.names]
  exact h.walk _ _

end DirectoryListing.Node
