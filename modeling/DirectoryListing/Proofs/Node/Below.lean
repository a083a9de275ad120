import DirectoryListing.Proofs.Path.Segments
import DirectoryListing.Proofs.Search.Order

/-!
# At and below a node

The nodes at and below a node are the node itself, and what lies at and below its children. So what
holds of a node and passes from every node to its children holds of all of them. In this way they
are shown to have paths made of their names only, seen from the root path as well as from the node,
and it is shown that a path which leads somewhere leads to one of them.

## Main definitions

* `Node.pathFrom start n`: the path of a node below another one
* `Node.NamedIn root names`: each of the names is one of a node at or below the root

## Main results

* `Node.forall_mem_preorder`: what children inherit holds of all that lies at and below a node
* `Node.relativePath_of_mem_preorder`: a node at or below another has a path from it
* `Node.resolve_eq`: a path leads where its names lead, one after another
-/

namespace DirectoryListing.Node

variable {n m k c root start : Node} {ch : Char} {p last x : Text} {xs : List Text}
  {e : StepError}

/-! ## Below -/

theorem mem_preorder_self (n : Node) : n ∈ n.preorder := by
  rw [preorder_eq]
  exact List.mem_cons_self

/-- **What children inherit** from a node holds of all that lies at and below it. -/
theorem forall_mem_preorder {P : Node → Prop} (hn : P n) (h : ∀ m c, P m → c ∈ m.children → P c) :
    ∀ m ∈ n.preorder, P m := by
  induction n using preorder.induct with
  | case1 n ih =>
    rw [preorder_eq]
    refine List.forall_mem_cons.mpr ⟨hn, fun m hm => ?_⟩
    obtain ⟨c, hc, hm⟩ := List.mem_flatMap.mp hm
    exact ih c hc (h n c hn hc) m hm

/-- What lies at or below a child lies below its parent. -/
theorem mem_preorder_of_mem_children (hc : c ∈ n.children) (hm : m ∈ c.preorder) :
    m ∈ n.preorder := by
  rw [preorder_eq]
  exact List.mem_cons_of_mem _ (List.mem_flatMap.mpr ⟨c, hc, hm⟩)

theorem mem_preorder_trans (hm : m ∈ n.preorder) : ∀ k ∈ m.preorder, k ∈ n.preorder := by
  suffices ∀ m ∈ n.preorder, m ∈ n.preorder ∧ ∀ k ∈ m.preorder, k ∈ n.preorder from (this m hm).2
  refine forall_mem_preorder ⟨mem_preorder_self n, fun _ => id⟩ fun m c h hc => ?_
  have below : ∀ k ∈ c.preorder, k ∈ n.preorder := fun k hk =>
    h.2 k (mem_preorder_of_mem_children hc hk)
  exact ⟨below c (mem_preorder_self c), below⟩

/-- The children of a node at or below another lie below the other as well. -/
theorem children_mem_preorder (hm : m ∈ n.preorder) (hc : c ∈ m.children) : c ∈ n.preorder :=
  mem_preorder_trans hm c (mem_preorder_of_mem_children hc (mem_preorder_self c))

theorem exists_under_of_mem_children (h : c ∈ n.children) : ∃ slot t, c = under n slot t := by
  obtain ⟨i, hi, rfl⟩ := List.mem_mapIdx.mp h
  exact ⟨_, _, rfl⟩

/-! ## Names and paths -/

/-- Each of the names is the name of a node at or below the root. -/
def NamedIn (root : Node) (names : List Text) : Prop :=
  ∀ x ∈ names, ∃ m ∈ root.preorder, m.name = x

/-- The names on the way to a node below a top are names of nodes there. -/
theorem namedIn_namesUpward {t : Tree} (h : n ∈ (ofTree t).preorder) :
    (ofTree t).NamedIn n.namesUpward := by
  suffices ∀ n ∈ (ofTree t).preorder,
      n ∈ (ofTree t).preorder ∧ (ofTree t).NamedIn n.namesUpward from (this n h).2
  refine forall_mem_preorder ⟨mem_preorder_self _, nofun⟩ fun m c hm hc => ?_
  have hc' := children_mem_preorder hm.1 hc
  obtain ⟨slot, u, rfl⟩ := exists_under_of_mem_children hc
  exact ⟨hc', List.forall_mem_cons.mpr ⟨⟨_, hc', rfl⟩, hm.2⟩⟩

theorem head?_path (n : Node) : n.path.head? = some '/' := by
  induction n with
  | top mark t => rfl
  | under p slot t ih =>
    rw [path_under]
    exact Path.head?_join ih

theorem mem_path (h : ch ∈ n.path) : ch = '/' ∨ ∃ x ∈ n.namesUpward, ch ∈ x := by
  induction n with
  | top mark t => exact .inl (List.mem_singleton.mp h)
  | under p slot t ih =>
    rw [path_under] at h
    rcases Path.mem_of_mem_join h with h | h | h
    · exact .inl h
    · exact (ih h).imp_right fun ⟨x, hx, hch⟩ => ⟨x, List.mem_cons_of_mem _ hx, hch⟩
    · exact .inr ⟨t.name, List.mem_cons_self, h⟩

/-! ## Paths from a node downwards -/

theorem same_refl (n : Node) : n.same n = true := by
  induction n with
  | top mark t => simp [same]
  | under p slot t ih => simp [same, ih]

/-- The names up to another node are names on the way up to the top. -/
theorem namesUpTo_subset (h : namesUpTo start n = some xs) : ∀ x ∈ xs, x ∈ n.namesUpward := by
  induction n generalizing xs with
  | top mark t =>
    rw [namesUpTo] at h
    split at h <;> cases h
    nofun
  | under p slot t ih =>
    rw [namesUpTo] at h
    split at h
    · cases h
      nofun
    · obtain ⟨ys, hys, rfl⟩ := Option.map_eq_some_iff.mp h
      exact List.forall_mem_cons.mpr ⟨List.mem_cons_self, fun x hx =>
        List.mem_cons_of_mem _ (ih hys x hx)⟩

/-- The way up from a node to itself has no names. -/
theorem namesUpTo_self (n : Node) : namesUpTo n n = some [] := by
  have here := n.same_refl
  cases n <;> rw [namesUpTo, if_pos here]

/-- The way up from a node below another comes to the other. -/
theorem exists_namesUpTo (h : n ∈ start.preorder) : ∃ xs, namesUpTo start n = some xs := by
  suffices ∀ n ∈ start.preorder, ∃ xs, namesUpTo start n = some xs from this n h
  refine forall_mem_preorder ⟨[], namesUpTo_self start⟩ fun m c ⟨xs, hxs⟩ hc => ?_
  obtain ⟨slot, t, rfl⟩ := exists_under_of_mem_children hc
  rw [namesUpTo, hxs]
  split
  · exact ⟨_, rfl⟩
  · exact ⟨_, rfl⟩

/-- The path of a node below another one. A node that does not lie there has none. -/
def pathFrom (start n : Node) : Text :=
  match n.relativePath start with
  | .ok p => p
  | .error _ => []

/-- **A node at or below another has a path from it**: a dot, or names on the way down to it. -/
theorem relativePath_of_mem_preorder (h : n ∈ start.preorder) :
    n.relativePath start = .ok (pathFrom start n) ∧
      (pathFrom start n = ['.'] ∨ ∃ xs, xs ≠ [] ∧ (∀ x ∈ xs, x ∈ n.namesUpward) ∧
        pathFrom start n = Path.ofSegments xs) := by
  obtain ⟨xs, hxs⟩ := exists_namesUpTo h
  rcases xs with _ | ⟨x, xs⟩
  · have hr : n.relativePath start = .ok ['.'] := by rw [relativePath, hxs]
    rw [pathFrom, hr]
    exact ⟨rfl, .inl rfl⟩
  · have hr : n.relativePath start = .ok (Path.ofSegments (x :: xs).reverse) := by
      rw [relativePath, hxs]
    rw [pathFrom, hr]
    refine ⟨rfl, .inr ⟨_, by simp, fun y hy => ?_, rfl⟩⟩
    exact namesUpTo_subset hxs y (List.mem_reverse.mp hy)

/-! ## Ways down -/

theorem child_eq_ok (h : n.child x = .ok c) : c ∈ n.children ∧ c.name = x := by
  unfold child at h
  split at h
  · rename_i hf
    cases h
    exact ⟨List.mem_of_find?_eq_some hf, by simpa using List.find?_some hf⟩
  · cases h

theorem child_eq_error (h : n.child x = .error e) : e = .unknownEntry x := by
  unfold child at h
  split at h <;> cases h
  rfl

/-- A way down that is not stopped leads to a node below, along names of nodes there. -/
theorem walk_eq_ok (h : walk p last n xs = .ok m) : m ∈ n.preorder ∧ n.NamedIn xs := by
  induction xs generalizing n last with
  | nil =>
    cases h
    exact ⟨mem_preorder_self m, nofun⟩
  | cons x xs ih =>
    rw [walk] at h
    split at h
    · split at h
      · rename_i c hc
        obtain ⟨hmem, rfl⟩ := child_eq_ok hc
        obtain ⟨hm, hxs⟩ := ih h
        have below : ∀ k ∈ c.preorder, k ∈ n.preorder := fun k =>
          mem_preorder_of_mem_children hmem
        refine ⟨below m hm, List.forall_mem_cons.mpr ⟨⟨c, below c (mem_preorder_self c), rfl⟩, ?_⟩⟩
        exact fun x hx => (hxs x hx).imp fun k => And.imp_left (below k)
      · cases h
    · cases h

/-- A way down is stopped at a name that no child has, or below a file that a name has led to. -/
theorem walk_eq_error (h : walk p last n xs = .error e) :
    (∃ x ∈ xs, e = .unknownEntry x) ∨ ∃ x ∈ last :: xs, e = .notDirectory x p := by
  induction xs generalizing n last with
  | nil => cases h
  | cons x xs ih =>
    rw [walk] at h
    split at h
    · split at h
      · refine (ih h).imp ?_ ?_
        · rintro ⟨y, hy, rfl⟩
          exact ⟨y, List.mem_cons_of_mem _ hy, rfl⟩
        · rintro ⟨y, hy, rfl⟩
          exact ⟨y, List.mem_cons_of_mem _ hy, rfl⟩
      · rename_i hc
        cases h
        exact .inl ⟨x, List.mem_cons_self, child_eq_error hc⟩
    · cases h
      exact .inr ⟨last, List.mem_cons_self, rfl⟩

/-- **A path leads where its names lead**, one after another from the root on. -/
theorem resolve_eq (root : Node) (p : Text) (cwd : Option Node) :
    let names := Path.names (Path.join ((cwd.map path).getD Path.root) p)
    root.resolve p cwd = walk (Path.ofSegments names) [] root names := by
  intro names
  have plain : ∀ x ∈ names, '/' ∉ x := fun x hx hs => (Path.mem_of_mem_names hx hs).2 rfl
  unfold resolve
  rcases hnames : names with _ | ⟨x, xs⟩
  · rw [show Path.names _ = [] from hnames]
    rfl
  · rw [hnames] at plain
    rw [show Path.names _ = x :: xs from hnames]
    simp only [descend, Path.segments_ofSegments (List.cons_ne_nil x xs) plain]

end DirectoryListing.Node
