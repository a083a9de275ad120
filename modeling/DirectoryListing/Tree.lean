import DirectoryListing.Text.Basic

/-!
# Listing trees

A listing describes a tree: files, and directories with their entries in the order of the listing.

## Main definitions

* `Entry`: what a listing says of one file or directory
* `Tree`: a file, or a directory with the trees of its entries
* `Tree.count t`: how many files and directories a tree holds
* `Tree.graft a ts t`: `t` with the trees `ts` put into the directory at address `a`
-/

namespace DirectoryListing

/-- A name in a tree stands for a directory or for a file; everything that is not a directory
counts as a file. -/
inductive Kind where
  | file
  | directory
  deriving DecidableEq, Repr

/-- The letter of a kind. -/
def Kind.letter : Kind → Char
  | file => 'f'
  | directory => 'd'

/-- The kind of a letter. -/
def Kind.ofLetter? (t : Text) : Option Kind :=
  if t = ['f'] then some file else if t = ['d'] then some directory else none

/-- What a listing says of one file or directory: its line, its name and its size. The root of a
tree, which no line describes, has an empty line and an empty name. -/
structure Entry where
  line : Text
  name : Text
  size : Nat
  deriving DecidableEq, Repr

/-- The entry of the root of a tree. -/
def Entry.root : Entry := ⟨[], [], 0⟩

/-- A file, or a directory with the trees of its entries in order. -/
inductive Tree where
  | file (entry : Entry)
  | directory (entry : Entry) (children : List Tree)

namespace Tree

mutual

/-- Decides whether two trees are equal. -/
def decEq : (t u : Tree) → Decidable (t = u)
  | file e, file e' => decidable_of_iff (e = e') (by simp)
  | directory e ts, directory e' us =>
    match decEqAll ts us with
    | isTrue h => decidable_of_iff (e = e') (by simp [h])
    | isFalse h => isFalse (by simp [h])
  | file _, directory .. => isFalse (by simp)
  | directory .., file _ => isFalse (by simp)

/-- Decides whether two lists of trees are equal. -/
def decEqAll : (ts us : List Tree) → Decidable (ts = us)
  | [], [] => isTrue rfl
  | t :: ts, u :: us =>
    match decEq t u, decEqAll ts us with
    | isTrue h, isTrue h' => isTrue (by rw [h, h'])
    | isFalse h, _ => isFalse (by simp [h])
    | _, isFalse h => isFalse (by simp [h])
  | [], _ :: _ => isFalse (by simp)
  | _ :: _, [] => isFalse (by simp)

end

instance : DecidableEq Tree := decEq

/-- What the listing says of the top of a tree. -/
def entry : Tree → Entry
  | file e => e
  | directory e _ => e

/-- The name of the top of a tree. -/
def name (t : Tree) : Text := t.entry.name

/-- The kind of the top of a tree. -/
def kind : Tree → Kind
  | file _ => .file
  | directory .. => .directory

/-- The trees below the top, in order; a file has none. -/
def children : Tree → List Tree
  | file _ => []
  | directory _ ts => ts

/-- A single entry of the given kind, with nothing below it. -/
def leaf (kind : Kind) (entry : Entry) : Tree :=
  match kind with
  | .file => file entry
  | .directory => directory entry []

mutual

/-- The number of files and directories in a tree. -/
def count : Tree → Nat
  | file _ => 1
  | directory _ ts => 1 + countAll ts

/-- The number of files and directories in a list of trees. -/
def countAll : List Tree → Nat
  | [] => 0
  | t :: ts => t.count + countAll ts

end

theorem countAll_append (ts us : List Tree) : countAll (ts ++ us) = countAll ts + countAll us := by
  induction ts with
  | nil => simp [countAll]
  | cons t ts ih => rw [List.cons_append, countAll, countAll, ih, Nat.add_assoc]

/-- A tree holds one more than the trees below its top. -/
theorem count_eq (t : Tree) : t.count = 1 + countAll t.children := by
  cases t <;> rfl

/-- A place in a tree: the position among its siblings of every entry on the way down to it. -/
abbrev Address := List Nat

/-- The tree with the trees `kids` in place of what the directory at the address holds. Where the
address leads to no directory the tree is left as it is. -/
def graft : Address → List Tree → Tree → Tree
  | [], kids, directory e _ => directory e kids
  | i :: address, kids, directory e ts => directory e (ts.modify i (graft address kids))
  | _, _, file e => file e

end Tree

end DirectoryListing
