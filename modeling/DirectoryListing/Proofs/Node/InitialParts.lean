import DirectoryListing.Proofs.Listing.Address
import DirectoryListing.Proofs.Node.Below

/-!
# Initial parts of a tree

A tree that goes on growing keeps what it has: what was said of a place stays, and children are only
added behind those that are there. So an earlier stage of the tree is an initial part of a later
one. It is enough to say so place by place; for the nodes it comes to a map of those of the one tree
into those of the other.

## Main definitions

* `Tree.IsInitial t u`: of every place of `t` the same is said in `u`
* `Node.inside u`: the node at the same place of the tree `u`
* `Node.TakesInto f m n`: a map of the nodes at and below a node to those of another

## Main results

* `Tree.isInitial_graft`: children are added behind those that were put in
* `Node.takesInto_inside`: the nodes of an initial part are nodes of the whole
-/

namespace DirectoryListing

/-! ## Trees -/

namespace Tree

variable {t u v s : Tree} {a : Address} {e : Entry} {ts kids more : List Tree} {i : Nat}

/-- The tree is an initial part of the other: of each of its places the same is said there. -/
def IsInitial (t u : Tree) : Prop :=
  ∀ a x, (t.at? a).map said = some x → (u.at? a).map said = some x

theorem IsInitial.refl (t : Tree) : t.IsInitial t := fun _ _ => id

theorem IsInitial.trans (h : t.IsInitial u) (h' : u.IsInitial v) : t.IsInitial v :=
  fun a x hx => h' a x (h a x hx)

theorem IsInitial.said_eq (h : t.IsInitial u) : u.said = t.said :=
  Option.some.inj (h [] t.said rfl)

/-- A child in an initial part is one of the whole, in the same position, and an initial part of
this one. -/
theorem IsInitial.child (h : t.IsInitial u) (hs : t.children[i]? = some s) :
    ∃ w, u.children[i]? = some w ∧ s.IsInitial w := by
  have here : (t.at? [i]).map said = some s.said := by
    rw [at?_cons, hs]
    rfl
  have below := h [i] s.said here
  rw [at?_cons] at below
  obtain ⟨w, hw, -⟩ := Option.map_eq_some_iff.mp below
  obtain ⟨w', hw', -⟩ := Option.bind_eq_some_iff.mp hw
  refine ⟨w', hw', fun b x hx => ?_⟩
  have further := h (i :: b) x (by rwa [at?_cons, hs, Option.bind_some])
  rwa [at?_cons, hw', Option.bind_some] at further

/-- What is said of a place is not changed by a change that is neither there nor above. -/
theorem said_graft_elsewhere {b : Address} (hab : ¬ a <+: b) :
    ((t.graft a kids).at? b).map said = (t.at? b).map said := by
  have face : ((t.graft a kids).at? b).map face = (t.at? b).map face :=
    face_graft_of_not_prefix hab
  have said := congrArg (Option.map Prod.fst) face
  rwa [Option.map_map, Option.map_map] at said

/-- **Children are added behind** those that were put in. -/
theorem isInitial_graft (ha : t.at? a = some (directory e ts)) (kids more : List Tree) :
    (t.graft a kids).IsInitial (t.graft a (kids ++ more)) := by
  intro b x hx
  by_cases hab : a <+: b
  · obtain ⟨r, rfl⟩ := hab
    rw [at?_append, at?_graft_self ha, Option.bind_some] at hx ⊢
    -- at the place itself the top is said to be the same, and below it the first children are
    rcases r with _ | ⟨i, r⟩
    · exact hx
    · rw [at?_cons, children] at hx ⊢
      obtain ⟨w, hw, -⟩ := Option.map_eq_some_iff.mp hx
      obtain ⟨s, hs, -⟩ := Option.bind_eq_some_iff.mp hw
      rwa [List.getElem?_append_left (List.getElem?_eq_some_iff.mp hs).1]
  · rwa [said_graft_elsewhere hab] at hx ⊢

/-- Filling an empty directory leaves all that was there. -/
theorem isInitial_graft_of_empty (ha : t.at? a = some (directory e [])) (kids : List Tree) :
    t.IsInitial (t.graft a kids) := by
  have grown := isInitial_graft ha [] kids
  rwa [graft_eq_self ha] at grown

end Tree

/-! ## Nodes -/

namespace Node

variable {t u : Tree} {m n c : Node}

/-- The node at the same place of another tree; where this tree has no such place, the node has the
tree that it had. -/
def inside (u : Tree) : Node → Node
  | top mark _ => top mark u
  | under p slot t =>
    under (p.inside u) slot <| match slot with
      | .held i => (p.inside u).tree.children[i]?.getD t
      | .loose _ => t

/-- A map takes the nodes at and below a node to nodes at and below another, and the one to the
other. What is said of a node and which its parent is are kept, and the children of a node become
the first children of its image. -/
structure TakesInto (f : Node → Node) (m n : Node) : Prop where
  top : f m = n
  below : ∀ k ∈ m.preorder, f k ∈ n.preorder
  kind : ∀ k ∈ m.preorder, (f k).kind = k.kind
  entry : ∀ k ∈ m.preorder, (f k).entry = k.entry
  parent : ∀ k ∈ m.preorder, (f k).parent? = k.parent?.map f
  children : ∀ k ∈ m.preorder, k.children.map f <+: (f k).children

/-- The children of a node become the first children of its image, in their order. -/
theorem map_inside_children (h : m.tree.IsInitial (m.inside u).tree) :
    m.children.map (inside u) <+: (m.inside u).children := by
  rw [List.prefix_iff_getElem?]
  intro i hi
  have hi : i < m.tree.children.length := by simpa [children] using hi
  obtain ⟨w, hw, -⟩ := h.child (List.getElem?_eq_getElem hi)
  simp [children, inside, hw]

/-- A child of a node becomes a child of its image, and its tree is an initial part there. -/
theorem inside_mem_children (h : m.tree.IsInitial (m.inside u).tree) (hc : c ∈ m.children) :
    c.inside u ∈ (m.inside u).children ∧ c.tree.IsInitial (c.inside u).tree := by
  refine ⟨(map_inside_children h).subset (List.mem_map_of_mem hc), ?_⟩
  obtain ⟨i, hi, rfl⟩ := List.mem_mapIdx.mp hc
  obtain ⟨w, hw, hinitial⟩ := h.child (List.getElem?_eq_getElem hi)
  show Tree.IsInitial _ ((m.inside u).tree.children[i]?.getD _)
  rwa [hw, Option.getD_some]

/-- **The nodes of an initial part** are nodes of the whole. -/
theorem takesInto_inside (h : t.IsInitial u) : TakesInto (inside u) (ofTree t) (ofTree u) := by
  have all : ∀ k ∈ (ofTree t).preorder,
      k.inside u ∈ (ofTree u).preorder ∧ k.tree.IsInitial (k.inside u).tree := by
    refine forall_mem_preorder ⟨mem_preorder_self _, h⟩ fun m c hm hc => ?_
    obtain ⟨hmem, hinitial⟩ := inside_mem_children hm.2 hc
    exact ⟨children_mem_preorder hm.1 hmem, hinitial⟩
  refine ⟨rfl, fun k hk => (all k hk).1, fun k hk => ?_, fun k hk => ?_, fun k _ => ?_,
    fun k hk => map_inside_children (all k hk).2⟩
  · exact congrArg (·.1) (all k hk).2.said_eq
  · exact congrArg (·.2) (all k hk).2.said_eq
  · cases k <;> rfl

end Node

end DirectoryListing
