import DirectoryListing.Fault
import DirectoryListing.Path
import DirectoryListing.Text.Quoted
import DirectoryListing.Tree

/-!
# Nodes

A node is a tree together with the way up from it: its parent, its parent's parent, up to a top.
So a node knows its path, and its children know it.

## Main definitions

* `Node`, `Slot`: a tree in its place
* `Node.ancestors`, `Node.children`, `Node.depth`: the neighbours of a node
* `Node.preorder n`: a node and all below it
* `Node.path n`: the absolute path of a node
* `Node.relativePath n base`: the path of a node below another
* `Node.child`, `Node.descend`: the node that a name, or a path downwards, leads to
* `Node.resolve root p cwd`: the node that a path leads to, seen from a directory

## Main results

* `Node.path_under`: the path of a node is its parent's path joined with its name
* `Node.weight_children_lt`: the children of a node hold less than the node
-/

namespace DirectoryListing

/-- The place of a node under its parent: the position at which the parent holds it, or a mark of
its own for a node that its parent does not hold. -/
inductive Slot where
  | held (position : Nat)
  | loose (mark : Nat)
  deriving DecidableEq, Repr

/-- The position of a slot, and minus one for a node that is not held. -/
def Slot.position : Slot → Int
  | held i => i
  | loose _ => -1

/-- A tree in its place: at a top, which has no parent and a mark that tells it from other tops,
or below a parent. -/
inductive Node where
  | top (mark : Nat) (tree : Tree)
  | under (parent : Node) (slot : Slot) (tree : Tree)
  deriving DecidableEq

namespace Node

/-! ## What a node is -/

/-- The tree at a node. -/
def tree : Node → Tree
  | top _ t => t
  | under _ _ t => t

/-- The root of a listing's tree. -/
def ofTree (t : Tree) : Node := top 0 t

/-- What the listing says of a node. -/
def entry (n : Node) : Entry := n.tree.entry

/-- The name of a node. -/
def name (n : Node) : Text := n.entry.name

/-- The kind of a node. -/
def kind (n : Node) : Kind := n.tree.kind

/-- The node is a directory. -/
def isDirectory (n : Node) : Bool := n.kind = .directory

/-- The number of files and directories at and below a node. -/
def weight (n : Node) : Nat := n.tree.count

/-! ## Its neighbours -/

/-- The parent of a node, which a top does not have. -/
def parent? : Node → Option Node
  | top .. => none
  | under p _ _ => some p

/-- The parent, the parent's parent and so on, up to a top. -/
def ancestors : Node → List Node
  | top .. => []
  | under p _ _ => p :: p.ancestors

/-- The number of ancestors. -/
def depth (n : Node) : Nat := n.ancestors.length

/-- The children of a node in order; a file has none. -/
def children (n : Node) : List Node :=
  n.tree.children.mapIdx fun i t => under n (.held i) t

/-- The positions on the way from the top down to a node. -/
def positions : Node → List Int
  | top .. => []
  | under p slot _ => p.positions ++ [slot.position]

/-- The node that child positions lead to, one after another. -/
def follow (n : Node) : Tree.Address → Option Node
  | [] => some n
  | i :: rest =>
    match n.children[i]? with
    | some c => c.follow rest
    | none => none

/-- Two nodes are the same one when their places are: the same top and the same slots below it. -/
def same : Node → Node → Bool
  | top m _, top m' _ => m = m'
  | under p slot _, under p' slot' _ => slot = slot' && p.same p'
  | _, _ => false

/-- How many nodes the given ones are, with all below them. -/
def totalWeight (ns : List Node) : Nat :=
  Tree.countAll (ns.map tree)

@[simp] theorem totalWeight_nil : totalWeight [] = 0 := rfl

@[simp] theorem totalWeight_cons (n : Node) (ns : List Node) :
    totalWeight (n :: ns) = n.weight + totalWeight ns := rfl

@[simp] theorem totalWeight_append (ms ns : List Node) :
    totalWeight (ms ++ ns) = totalWeight ms + totalWeight ns := by
  rw [totalWeight, List.map_append, Tree.countAll_append, totalWeight, totalWeight]

theorem map_tree_children (n : Node) : n.children.map tree = n.tree.children := by
  apply List.ext_getElem
  · simp [children]
  · intro i h₁ h₂
    simp [children, tree]

/-- The children of a node hold less than the node itself. -/
theorem weight_children_lt (n : Node) : totalWeight n.children < n.weight := by
  rw [totalWeight, map_tree_children, weight, Tree.count_eq]
  omega

theorem weight_le_total {c : Node} {ns : List Node} (h : c ∈ ns) : c.weight ≤ totalWeight ns := by
  induction h with
  | head => simp
  | tail _ _ ih =>
    rw [totalWeight_cons]
    omega

theorem weight_lt_of_mem_children {n c : Node} (h : c ∈ n.children) : c.weight < n.weight :=
  Nat.lt_of_le_of_lt (weight_le_total h) n.weight_children_lt

/-- A node and all below it: the node itself first, then each child with all below that. -/
def preorder (n : Node) : List Node :=
  n :: n.children.attach.flatMap fun ⟨c, _⟩ => preorder c
termination_by n.weight
decreasing_by exact weight_lt_of_mem_children ‹_›

theorem depth_under (p : Node) (slot : Slot) (t : Tree) : (under p slot t).depth = p.depth + 1 := by
  simp [depth, ancestors]

/-! ## Its paths -/

/-- The names of a node and its ancestors, the top's left out, from the node upwards. -/
def namesUpward : Node → List Text
  | top .. => []
  | under p _ t => t.name :: p.namesUpward

/-- The names on the way from the top down to a node, the top's left out. -/
def names (n : Node) : List Text := n.namesUpward.reverse

/-- The absolute path of a node: the names down to it, each joined to the path before it. -/
def path (n : Node) : Text := n.names.foldl Path.join Path.root

/-- A top stands at the root path. -/
theorem path_top (mark : Nat) (t : Tree) : (top mark t).path = Path.root := rfl

/-- The path of a node below a parent is the parent's path joined with the node's name. -/
theorem path_under (p : Node) (slot : Slot) (t : Tree) :
    (under p slot t).path = Path.join p.path t.name := by
  simp [path, names, namesUpward, List.foldl_append]

/-- The names from a node up to another, whose own name is left out, if the other is the node
itself or one of its ancestors. -/
def namesUpTo (base : Node) : Node → Option (List Text)
  | top m t => if (top m t).same base then some [] else none
  | under p slot t =>
    if (under p slot t).same base then some []
    else (namesUpTo base p).map (t.name :: ·)

/-- A node at the first path does not lie below the node at the second one. -/
structure Outside where
  path : Text
  base : Text
  deriving DecidableEq, Repr

/-- The fault of a node that does not lie below another. -/
def Outside.fault (e : Outside) : Fault :=
  .badValue (e.path ++ " is not inside ".toList ++ e.base)

/-- The path of a node below another: a dot for the other itself, and else the names on the way
down to the node. -/
def relativePath (n base : Node) : Except Outside Text :=
  match namesUpTo base n with
  | none => .error ⟨n.path, base.path⟩
  | some [] => .ok ['.']
  | some upward => .ok (Path.ofSegments upward.reverse)

/-! ## Ways down -/

/-- What stops the way down a path. -/
inductive StepError where
  /-- A directory without an entry of that name. -/
  | unknownEntry (name : Text)
  /-- A file of that name where the path goes on. -/
  | notDirectory (name path : Text)
  deriving DecidableEq, Repr

/-- The fault of a way down that is stopped. -/
def StepError.fault : StepError → Fault
  | unknownEntry name => .unknownEntry name
  | notDirectory name path => .notDirectory name path

/-- The first child with the given name. -/
def child (n : Node) (name : Text) : Except StepError Node :=
  match n.children.find? (·.name = name) with
  | some c => .ok c
  | none => .error (.unknownEntry name)

/-- The node that the segments of the path `p` lead to, one child after another. Below a file,
which was reached by the segment `last`, no segment leads further. -/
def walk (p last : Text) (n : Node) : List Text → Except StepError Node
  | [] => .ok n
  | segment :: rest =>
    -- a file is no error as long as no segment is left
    if n.isDirectory then
      match n.child segment with
      | .ok c => walk p segment c rest
      | .error e => .error e
    else .error (.notDirectory last p)

/-- The node that a path downwards leads to. Every segment is the name of a child. -/
def descend (n : Node) (p : Text) : Except StepError Node :=
  walk p [] n (Path.segments p)

/-- The node that a path leads to, seen from the node `cwd`, or from the root path without one. The
path and the one of `cwd` are first made names by their text alone. -/
def resolve (root : Node) (p : Text) (cwd : Option Node) : Except StepError Node :=
  match Path.names (Path.join ((cwd.map path).getD Path.root) p) with
  | [] => .ok root
  | names => root.descend (Path.ofSegments names)

/-! ## Names of a node in error texts -/

/-- A node as error texts show it: its kind, its path and its size. -/
def shown (n : Node) : Text :=
  let kind := match n.kind with
    | .file => "FileNode".toList
    | .directory => "DirectoryNode".toList
  kind ++ "(path=".toList ++ n.path.quoted ++ ", size=".toList ++ Text.ofNat n.entry.size ++
    ")".toList

end Node

end DirectoryListing
