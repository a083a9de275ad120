import DirectoryListing.Proofs.Node.Addresses
import DirectoryListing.Proofs.Node.Resolution

/-!
# Paths and ancestors

A node keeps no path. Both of its paths are made of names that are collected on the way up from it,
the absolute one with all of them but the top's, the one from another node with those below the
other. Yet they are what a recursion down the tree would give: a name more on the way down is a name
more in the path.

The way up from a node passes its ancestors in order, and from each of them it goes on as it does
from the ancestor itself. So the names below an ancestor are those of the node and of all that is
passed before the ancestor, and two such ways one behind the other are one way.

A node is an ancestor of another when it is passed on the way up, which is a matter of which node it
is and not of how it is named. A node without an ancestor has no name in its paths: it stands at the
root path, and from itself, as every node, at a dot.

## Main definitions

* `Node.FollowsTree n`: the paths of a node, as a recursion over its ancestors gives them

## Main results

* `Node.exists_ancestors_eq`: the way up goes on from an ancestor as it does from there
* `Node.relativePath_of_ancestors_eq`: the path from an ancestor is made of the names below it
* `Node.relativePath_eq_error_iff`: which nodes a node has no path from
* `Node.followsTree`: the paths of every node
-/

namespace DirectoryListing.Node

variable {n m base root : Node} {between : List Node} {e : Outside}

/-! ## The way up -/

/-- **The way up from a node** goes on from an ancestor as it does from there. -/
theorem exists_ancestors_eq (h : m ∈ n.ancestors) :
    ∃ between, n.ancestors = between ++ m :: m.ancestors := by
  induction n with
  | top mark t => cases h
  | under p slot t ih =>
    rcases List.mem_cons.mp h with rfl | h
    · exact ⟨[], rfl⟩
    · obtain ⟨between, hb⟩ := ih h
      exact ⟨p :: between, by rw [ancestors, hb, List.cons_append]⟩

theorem depth_lt_of_mem_ancestors (h : m ∈ n.ancestors) : m.depth < n.depth := by
  obtain ⟨between, hb⟩ := exists_ancestors_eq h
  rw [depth, depth, hb, List.length_append, List.length_cons]
  omega

/-- An ancestor is another node. -/
theorem not_same_of_mem_ancestors (h : m ∈ n.ancestors) : ¬ n.same m = true := fun hsame =>
  Nat.ne_of_gt (depth_lt_of_mem_ancestors h) (depth_eq_of_same hsame)

/-! ## The names below an ancestor -/

/-- The names up to an ancestor are those of the node and of all nodes passed before. -/
theorem namesUpTo_of_ancestors_eq (h : n.ancestors = between ++ m :: m.ancestors) :
    namesUpTo m n = some ((n :: between).map name) := by
  induction between generalizing n with
  | nil =>
    have apart := not_same_of_mem_ancestors (h ▸ List.mem_cons_self : m ∈ n.ancestors)
    cases n with
    | top mark t => cases h
    | under p slot t =>
      obtain rfl : p = m := (List.cons.inj h).1
      rw [namesUpTo, if_neg apart, namesUpTo_self]
      rfl
  | cons k between ih =>
    have inside : m ∈ n.ancestors := h ▸ List.mem_append_right _ List.mem_cons_self
    have apart := not_same_of_mem_ancestors inside
    cases n with
    | top mark t => cases h
    | under p slot t =>
      obtain ⟨rfl, hp⟩ := List.cons.inj h
      rw [namesUpTo, if_neg apart, ih hp]
      rfl

/-- The names of a node are those up to the top, read downwards. -/
theorem namesUpTo_of_parent?_eq_none (h : root ∈ n.ancestors) (htop : root.parent? = none) :
    namesUpTo root n = some n.namesUpward := by
  induction n with
  | top mark t => cases h
  | under p slot t ih =>
    rw [namesUpTo, if_neg (not_same_of_mem_ancestors h), namesUpward]
    rcases List.mem_cons.mp h with rfl | h
    · cases root with
      | top mark t => rw [namesUpTo_self, namesUpward, Option.map_some]
      | under p slot t => cases htop
    · rw [ih h, Option.map_some]

/-- **The path of a node from an ancestor** is made of the names below the ancestor. -/
theorem relativePath_of_ancestors_eq (h : n.ancestors = between ++ m :: m.ancestors) :
    n.relativePath m = .ok (Path.ofSegments ((n :: between).map name).reverse) := by
  rw [relativePath, namesUpTo_of_ancestors_eq h]
  rfl

theorem relativePath_self (n : Node) : n.relativePath n = .ok ['.'] := by
  rw [relativePath, namesUpTo_self]

/-- A path from an ancestor of an ancestor leads through the ancestor. -/
theorem exists_relativePath_append (hm : m ∈ n.ancestors) (hbase : base ∈ m.ancestors) :
    ∃ front back, m.relativePath base = .ok front ∧ n.relativePath m = .ok back ∧
      n.relativePath base = .ok (front ++ '/' :: back) := by
  obtain ⟨lower, hlower⟩ := exists_ancestors_eq hm
  obtain ⟨upper, hupper⟩ := exists_ancestors_eq hbase
  have whole : n.ancestors = (lower ++ m :: upper) ++ base :: base.ancestors := by
    rw [hlower, hupper, List.append_assoc, List.cons_append]
  refine ⟨_, _, relativePath_of_ancestors_eq hupper, relativePath_of_ancestors_eq hlower, ?_⟩
  have names : ((n :: (lower ++ m :: upper)).map name).reverse =
      ((m :: upper).map name).reverse ++ ((n :: lower).map name).reverse := by
    rw [← List.reverse_append, ← List.map_append, List.cons_append]
  rw [relativePath_of_ancestors_eq whole, names,
    Path.ofSegments_append (by simp) (by simp)]

/-! ## Nodes outside -/

/-- There is a way up to the node itself and to its ancestors, and to no other node. -/
theorem namesUpTo_eq_none_iff :
    namesUpTo base n = none ↔ ∀ a ∈ n :: n.ancestors, ¬ a.same base = true := by
  induction n with
  | top mark t =>
    rw [namesUpTo, ancestors, List.forall_mem_singleton]
    split
    · next h =>
      apply iff_of_false
      · exact Option.some_ne_none _
      · exact not_not_intro h
    · next h => exact iff_of_true rfl h
  | under p slot t ih =>
    rw [namesUpTo, ancestors, List.forall_mem_cons, ← ih]
    split
    · next h =>
      -- the node itself is passed first, whatever lies above
      apply iff_of_false
      · exact Option.some_ne_none _
      · intro outside
        exact outside.1 h
    · next h => rw [Option.map_eq_none_iff, and_iff_right h]

/-- **A node has no path from another one** that is neither the node itself nor an ancestor. -/
theorem relativePath_eq_error_iff : n.relativePath base = .error e ↔
    (∀ a ∈ n :: n.ancestors, ¬ a.same base = true) ∧ e = ⟨n.path, base.path⟩ := by
  rw [← namesUpTo_eq_none_iff, relativePath]
  split
  · next h => simp [h, eq_comm]
  · next h => simp [h]
  · next h => simp [h]

/-- The fault of a path that is not there tells where both nodes stand. -/
theorem mapError_relativePath_eq_error_iff {fault : Fault} :
    (n.relativePath base).mapError Outside.fault = .error fault ↔
      (∀ a ∈ n :: n.ancestors, ¬ a.same base = true) ∧
        fault = .badValue (n.path ++ " is not inside ".toList ++ base.path) := by
  constructor
  · intro h
    cases hr : n.relativePath base with
    | ok p =>
      rw [hr] at h
      cases h
    | error e =>
      rw [hr] at h
      obtain ⟨outside, rfl⟩ := relativePath_eq_error_iff.mp hr
      exact ⟨outside, (Except.error.inj h).symm⟩
  · rintro ⟨outside, rfl⟩
    rw [relativePath_eq_error_iff.mpr ⟨outside, rfl⟩]
    rfl

/-! ## The paths of a node -/

/-- With names that have no slash at their ends, the absolute path is the one from the top behind a
slash. -/
theorem path_eq_cons_relativePath (h : root ∈ n.ancestors) (htop : root.parent? = none)
    (hnames : ∀ x ∈ n.names, Path.IsTrimmed x) :
    ∃ p, n.relativePath root = .ok p ∧ n.path = '/' :: p := by
  refine ⟨Path.ofSegments n.names, ?_, path_eq_of_isTrimmed hnames⟩
  cases n with
  | top mark t => cases h
  | under p slot t =>
    rw [relativePath, namesUpTo_of_parent?_eq_none h htop]
    rfl

/-- The paths of a node, as a recursion over its ancestors gives them. -/
structure FollowsTree (n : Node) : Prop where
  /-- Without a parent, a node stands at the root path. -/
  top : n.parent? = none → n.path = Path.root
  /-- With a parent, it stands below the path of the parent, whatever its own name is. -/
  under : ∀ p, n.parent? = some p → n.path = Path.join p.path n.name
  /-- From itself, it stands at a dot. -/
  itself : n.relativePath n = .ok ['.']
  /-- From an ancestor of an ancestor, the path leads through the ancestor. -/
  through : ∀ m ∈ n.ancestors, ∀ base ∈ m.ancestors, ∃ front back,
    m.relativePath base = .ok front ∧ n.relativePath m = .ok back ∧
      n.relativePath base = .ok (front ++ '/' :: back)
  /-- There is no path from a node that is neither the node itself nor one of its ancestors, and
  only from such a one there is none. -/
  outside : ∀ base fault, (n.relativePath base).mapError Outside.fault = .error fault ↔
    (∀ a ∈ n :: n.ancestors, ¬ a.same base = true) ∧
      fault = .badValue (n.path ++ " is not inside ".toList ++ base.path)
  /-- Below the top, names that neither are empty nor begin or end with a slash make the absolute
  path out of the one from the top. -/
  absolute : ∀ root ∈ n.ancestors, root.parent? = none → (∀ x ∈ n.names, Path.IsTrimmed x) →
    ∃ p, n.relativePath root = .ok p ∧ n.path = '/' :: p

/-- **The paths of every node follow the tree.** A node stands at the path of its parent joined with
its name, whatever the names are, and a path from an ancestor is put together at every node passed.
There is no path from a node that is not passed. With plain names, the absolute path of a node that
has a parent is the one from the top behind a slash. -/
theorem followsTree (n : Node) : n.FollowsTree where
  top h := by
    cases n with
    | top mark t => exact path_top mark t
    | under p slot t => cases h
  under p h := by
    cases n with
    | top mark t => cases h
    | under q slot t =>
      obtain rfl := Option.some.inj h
      exact path_under q slot t
  itself := relativePath_self n
  through _ hm _ hbase := exists_relativePath_append hm hbase
  outside _ _ := mapError_relativePath_eq_error_iff
  absolute _ h htop hnames := path_eq_cons_relativePath h htop hnames

/-- The path of the inner directory leads through the outer one, and its parent has none from it. -/
theorem followsTree_shelf : ∃ m n, (ofTree shelf).follow [0] = some m ∧
    (ofTree shelf).follow [0, 1] = some n ∧ n.path = Path.join m.path n.name ∧
    (∃ front back, m.relativePath (ofTree shelf) = .ok front ∧ n.relativePath m = .ok back ∧
      n.relativePath (ofTree shelf) = .ok (front ++ '/' :: back)) ∧
    (m.relativePath n).mapError Outside.fault =
      .error (.badValue "/a is not inside /a/b".toList) := by
  obtain ⟨m, n, hm, hn, parent, ways, outside⟩ : ∃ m n, (ofTree shelf).follow [0] = some m ∧
      (ofTree shelf).follow [0, 1] = some n ∧ n.parent? = some m ∧
      (m ∈ n.ancestors ∧ ofTree shelf ∈ m.ancestors) ∧
      (∀ a ∈ m :: m.ancestors, ¬ a.same n = true) ∧
      m.path ++ " is not inside ".toList ++ n.path = "/a is not inside /a/b".toList :=
    ⟨_, _, rfl, rfl, rfl, by decide, by decide, by decide⟩
  refine ⟨m, n, hm, hn, (followsTree n).under m parent,
    (followsTree n).through m ways.1 (ofTree shelf) ways.2, ?_⟩
  exact ((followsTree m).outside n _).mpr ⟨outside.1, congrArg Fault.badValue outside.2.symm⟩

end DirectoryListing.Node
