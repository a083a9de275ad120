import DirectoryListing.Text.Blank

/-!
# Blocks

A listing is made of blocks, one for each directory, with blank lines between them. A block starts
with a header; the line after it gives a total, which is not looked at, and all further lines are
entries.

## Main definitions

* `Line`, `Line.number`: a line and its number in the listing
* `Block`, `Block.ofLines`: the blocks of a listing
* `Block.label?`: the directory that the header of a block names
-/

namespace DirectoryListing

/-- A line of a listing, without its line end, and its number, counted from one. -/
structure Line where
  number : Nat
  text : Text
  deriving DecidableEq, Repr

/-- The lines of a listing with their numbers, the first of them as given. -/
def Line.numberedFrom : Nat → List Text → List Line
  | _, [] => []
  | n, t :: ts => ⟨n, t.withoutLineEnd⟩ :: numberedFrom (n + 1) ts

/-- The lines of a listing, numbered from one. -/
def Line.numbered (ts : List Text) : List Line :=
  numberedFrom 1 ts

/-- A line that separates blocks. -/
def Line.isBlank (l : Line) : Bool :=
  l.text.isBlank

/-- A block: its header and the lines after it. -/
structure Block where
  header : Line
  body : List Line
  deriving DecidableEq, Repr

namespace Block

/-- The blocks of a listing: its longest runs of lines that are not blank. -/
def ofLines : List Line → List Block
  | [] => []
  | l :: ls =>
    if l.isBlank then ofLines ls
    else ⟨l, ls.takeWhile (!·.isBlank)⟩ :: ofLines (ls.dropWhile (!·.isBlank))
termination_by ls => ls.length
decreasing_by
  · simp
  · have : (ls.dropWhile (!·.isBlank)).length ≤ ls.length := by
      simpa using (List.dropWhile_sublist (l := ls) (!·.isBlank)).length_le
    simp only [List.length_cons]
    omega

/-- The lines of a block's entries. -/
def entries (b : Block) : List Line :=
  b.body.drop 1

/-- The block has a total, and so might have entries. -/
def hasTotal (b : Block) : Bool :=
  !b.body.isEmpty

/-- What stands before the last occurrence of a character, if it occurs. -/
def beforeLast? (c : Char) (t : Text) : Option Text :=
  if t.contains c then some ((t.reverse.dropWhile (· ≠ c)).drop 1).reverse else none

/-- The label of a block: what its header says before the last colon. -/
def label? (b : Block) : Option Text :=
  beforeLast? ':' b.header.text

end Block

end DirectoryListing
