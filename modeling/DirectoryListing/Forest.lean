import DirectoryListing.Node

/-!
# Forests under construction

Nodes can also be made one at a time. A node is made below a parent or without one, and its parent
holds it once it has been put there, which may happen more than once. A forest is the nodes made so
far, each known by its number in the order of making, so a parent has a smaller number than its
children.

## Main definitions

* `Forest`: the nodes made so far
* `Forest.trees f`: the trees at all nodes
* `Forest.node f i`: the node with number `i`, with all that lies below it at present
* `Forest.add`, `Forest.append`: making a node, and putting it into its parent
* `Forest.ofTree t`: the nodes of a tree, each held by its parent
-/

namespace DirectoryListing

/-- A node under construction: what it is, the number of its parent and the numbers of the children
that have been put into it. -/
structure Forest.Item where
  kind : Kind
  entry : Entry
  parent : Option Nat
  held : List Nat
  deriving DecidableEq, Repr

/-- The nodes made so far, in the order of making. -/
structure Forest where
  items : List Forest.Item
  deriving DecidableEq, Repr

namespace Forest

/-- A forest without nodes. -/
def empty : Forest := ⟨[]⟩

/-! ## Reading -/

/-- The tree at a node under construction, given the trees at the nodes by their numbers. -/
def Item.tree (item : Item) (tree? : Nat → Option Tree) : Tree :=
  match item.kind with
  | .file => .file item.entry
  | .directory => .directory item.entry (item.held.filterMap tree?)

/-- The trees at the nodes with the numbers from `i` on, given these nodes. A node holds only nodes
with greater numbers, so its tree is made of the trees behind it, each of which is made once. -/
def treesFrom (i : Nat) : List Item → List Tree
  | [] => []
  | item :: items =>
    let later := treesFrom (i + 1) items
    item.tree (fun j => if i < j then later[j - (i + 1)]? else none) :: later

/-- The trees at all nodes, by their numbers. -/
def trees (f : Forest) : List Tree :=
  treesFrom 0 f.items

/-- The place of the node with number `i` below the parent with the given number: where the parent
first holds it. -/
def slot (f : Forest) (parent i : Nat) : Slot :=
  match f.items[parent]? with
  | none => .loose i
  | some item =>
    match item.held.findIdx? (· = i) with
    | some position => .held position
    | none => .loose i

/-- The node with number `i` when the given trees are those at all nodes, looking only `fuel` steps
up; numbers fall on the way up. -/
def nodeWithin (f : Forest) (trees : List Tree) : Nat → Nat → Node
  | fuel, i =>
    let tree := trees[i]?.getD (.file .root)
    match f.items[i]?.bind (·.parent), fuel with
    | some p, fuel + 1 => .under (nodeWithin f trees fuel p) (f.slot p i) tree
    | _, _ => .top i tree

/-- The node with number `i`, with all that lies above and below it. -/
def node (f : Forest) (i : Nat) : Node :=
  f.nodeWithin f.trees (i + 1) i

/-- The number of the node that the positions lead to from the node with number `i`. -/
def follow (f : Forest) (i : Nat) : Tree.Address → Option Nat
  | [] => some i
  | position :: rest =>
    match f.items[i]?.bind (·.held[position]?) with
    | some j => f.follow j rest
    | none => none

/-! ## Making -/

/-- Why a node is not made, or not put into another. -/
inductive Error where
  /-- A size below zero. -/
  | negativeSize (size : Int)
  /-- A node that belongs elsewhere. -/
  | foreignChild (child parent : Node)

/-- The fault of a node that is not made or not put into another. -/
def Error.fault : Error → Fault
  | negativeSize size => .badValue ("size cannot be negative: ".toList ++ Text.ofInt size)
  | foreignChild child parent =>
    .badValue (child.shown ++ " does not belong to ".toList ++ parent.shown)

/-- A size as a caller gives it: a number of bytes, unless it is negative. -/
def checkedSize (size : Int) : Except Error Nat :=
  if size < 0 then .error (.negativeSize size) else .ok size.toNat

/-- The forest with one more node, and the number of that node. Nothing holds it yet. -/
def add (f : Forest) (kind : Kind) (parent : Option Nat) (line name : Text) (size : Int) :
    Except Error (Forest × Nat) :=
  match checkedSize size with
  | .error e => .error e
  | .ok size => .ok (⟨f.items ++ [⟨kind, ⟨line, name, size⟩, parent, []⟩]⟩, f.items.length)

/-- The forest with the node numbered `child` put into the one numbered `parent`, behind what that
one holds already. Only a node's own parent takes it. -/
def append (f : Forest) (parent child : Nat) : Except Error Forest :=
  -- the same child may be put in again
  if f.items[child]?.bind (·.parent) = some parent then
    .ok ⟨f.items.modify parent fun item => { item with held := item.held ++ [child] }⟩
  else .error (.foreignChild (f.node child) (f.node parent))

/-! ## Whole trees -/

mutual

/-- The forest with the nodes of a tree added, its top below the node `parent` without being held
by it, and the number of the top. -/
def plant (f : Forest) (parent : Option Nat) : Tree → Forest × Nat
  | .file entry => (⟨f.items ++ [⟨.file, entry, parent, []⟩]⟩, f.items.length)
  | .directory entry children =>
    let i := f.items.length
    (plantAll ⟨f.items ++ [⟨.directory, entry, parent, []⟩]⟩ i children, i)

/-- The forest with the nodes of some trees added, all put into the node `parent`. -/
def plantAll (f : Forest) (parent : Nat) : List Tree → Forest
  | [] => f
  | t :: ts =>
    let (f', i) := plant f (some parent) t
    plantAll ⟨f'.items.modify parent fun item => { item with held := item.held ++ [i] }⟩ parent ts

end

/-- The forest of the nodes of one tree, its root first. -/
def ofTree (t : Tree) : Forest :=
  (plant empty none t).1

end Forest

end DirectoryListing
