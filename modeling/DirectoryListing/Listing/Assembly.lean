import DirectoryListing.Fault
import DirectoryListing.Listing.Block
import DirectoryListing.Listing.EntryLine
import DirectoryListing.Log
import DirectoryListing.Path
import DirectoryListing.Text.Quoted

/-!
# Reading a listing

The first block of a listing describes the root. A directory among the entries of a block announces
a later block, whose label is the block's own label joined with the directory's name. The entries
of the announced block are the children of that directory. An announcement serves one block, and a
later one with the same label takes its place.

A block that was never announced is an error when reading is strict. Otherwise it is skipped: its
lines are checked, it leaves nothing in the tree, and the blocks that it announces leave nothing
there either.

## Main definitions

* `Listing.Error`, `Listing.Note`: why a listing has no tree, and what is noted on the way
* `Listing.Assembly`: the tree so far, and the announced blocks that are still to come
* `Listing.Assembly.addBlock`: reading one block
* `Listing.parse strict lines`: the tree of a listing
-/

namespace DirectoryListing.Listing

/-! ## Errors and notes -/

/-- What is wrong with a line. -/
inductive Reason where
  /-- It should be an entry, and does not have the shape of one. -/
  | shape
  /-- It should be a header, and has no colon. -/
  | header
  /-- It is the header of a block that was never announced. -/
  | unknownDirectory
  deriving DecidableEq, Repr

/-- The text of a reason. -/
def Reason.text : Reason → Text
  | shape => Fault.defaultReason
  | header => "expected directory header".toList
  | unknownDirectory => "block for unknown directory".toList

/-- Why a listing has no tree: one of its lines is wrong, or it has no block. -/
inductive Error where
  | malformed (line : Line) (reason : Reason)
  | empty
  deriving DecidableEq, Repr

/-- The fault of a listing without a tree. -/
def Error.fault : Error → Fault
  | malformed line reason => .malformedLine line.text (some line.number) reason.text
  | empty => .emptyListing Fault.emptyListingMessage

/-- What is noted while a listing is read. -/
inductive Note where
  /-- A block with this label, which was never announced, is skipped; its header has this number. -/
  | skipped (label : Text) (number : Nat)
  /-- A block with this label has been read, and has so many entries. -/
  | block (label : Text) (entries : Nat)
  /-- All has been read: so many blocks, with so many entries and the root. -/
  | finished (blocks nodes : Nat)
  deriving DecidableEq, Repr

/-- The record of a note. -/
def Note.record : Note → Log.Record
  | skipped label number =>
    ⟨.warning, .listing, "Skipping block for unknown directory ".toList ++ label.quoted ++
      " at line ".toList ++ Text.ofNat number⟩
  | block label entries =>
    ⟨.debug, .listing, "Parsed block ".toList ++ label.quoted ++ ": ".toList ++
      Text.ofNat entries ++ " entries".toList⟩
  | finished blocks nodes =>
    ⟨.info, .listing, "Parsed listing: ".toList ++ Text.ofNat blocks ++ " blocks, ".toList ++
      Text.ofNat nodes ++ " nodes".toList⟩

/-! ## Announcements -/

/-- Where the entries of a block go: to the directory at an address of the tree, or nowhere. -/
inductive Place where
  | inside (address : Tree.Address)
  | nowhere
  deriving DecidableEq, Repr

/-- The place of the entry at position `i` of a block whose entries go to a place. -/
def Place.entry (i : Nat) : Place → Place
  | inside address => inside (address ++ [i])
  | nowhere => nowhere

/-- The announced blocks that are still to come, by their labels. No label occurs twice. -/
abbrev Announcements := List (Text × Place)

/-- The announcements without those for a label. -/
def Announcements.drop (w : Announcements) (label : Text) : Announcements :=
  w.filter (·.1 ≠ label)

/-- The announcements with one more, which takes the place of an earlier one for its label. -/
def Announcements.announce (w : Announcements) (label : Text) (place : Place) : Announcements :=
  (label, place) :: w.drop label

/-- The announcements after the directories among some entries, the first of which has position
`i` in the block with the given label and place. -/
def Announcements.announceAll (label : Text) (place : Place) :
    Nat → List (Kind × Entry) → Announcements → Announcements
  | _, [], w => w
  | i, (.file, _) :: entries, w => announceAll label place (i + 1) entries w
  | i, (.directory, e) :: entries, w =>
    announceAll label place (i + 1) entries
      (w.announce (Path.join label e.name) (place.entry i))

/-! ## Assembly -/

/-- The tree so far, which starts with the first block; the announced blocks that are still to come;
and the numbers of blocks and entries so far. -/
structure Assembly where
  tree : Option Tree
  announced : Announcements
  blocks : Nat
  entries : Nat

namespace Assembly

/-- Nothing read yet. -/
def start : Assembly := ⟨none, [], 0, 0⟩

/-- Where the entries of a block with the given label go: to the root for the first block, and else
where the announcement says. -/
def place? (a : Assembly) (label : Text) : Option Place :=
  match a.tree with
  | none => some (.inside [])
  | some _ => a.announced.lookup label

/-- The tree with some entries put in their place. The first entries make the root. -/
def treeWith (a : Assembly) (place : Place) (entries : List (Kind × Entry)) : Option Tree :=
  let leaves := entries.map fun (kind, entry) => Tree.leaf kind entry
  match a.tree, place with
  | none, _ => some (.directory .root leaves)
  | some t, .inside address => some (t.graft address leaves)
  | some t, .nowhere => some t

/-- The assembly after a block with the given label, place and entries. -/
def put (a : Assembly) (label : Text) (place : Place) (entries : List (Kind × Entry)) : Assembly :=
  { tree := a.treeWith place entries
    -- the announcement of this very block is used up before its entries make their own
    announced := Announcements.announceAll label place 0 entries (a.announced.drop label)
    blocks := a.blocks + 1
    entries := a.entries + entries.length }

end Assembly

/-- The entries of some lines, up to the first line that is none. -/
def readEntries : List Line → Except Error (List (Kind × Entry))
  | [] => .ok []
  | l :: ls =>
    match EntryLine.read? l.text with
    | none => .error (.malformed l .shape)
    | some entry =>
      match readEntries ls with
      | .error e => .error e
      | .ok entries => .ok (entry :: entries)

namespace Assembly

/-- Reads one block: its header, then where it goes, then its entries. -/
def addBlock (strict : Bool) (a : Assembly) (b : Block) : List Note × Except Error Assembly :=
  match b.label? with
  | none => ([], .error (.malformed b.header .header))
  | some label =>
    match a.place? label, strict with
    | none, true => ([], .error (.malformed b.header .unknownDirectory))
    | place?, _ =>
      -- the lines of a skipped block are still checked
      let skipped := if place?.isNone then [Note.skipped label b.header.number] else []
      match readEntries b.entries with
      | .error e => (skipped, .error e)
      | .ok entries =>
        let read := if b.hasTotal then [Note.block label entries.length] else []
        (skipped ++ read, .ok (a.put label (place?.getD .nowhere) entries))

/-- Reads blocks in order, up to the first error. -/
def addBlocks (strict : Bool) (a : Assembly) : List Block → List Note × Except Error Assembly
  | [] => ([], .ok a)
  | b :: bs =>
    match a.addBlock strict b with
    | (notes, .error e) => (notes, .error e)
    | (notes, .ok a') =>
      let (later, result) := addBlocks strict a' bs
      (notes ++ later, result)

end Assembly

/-! ## Whole listings -/

/-- What reading a listing comes to: its tree or an error, and the notes taken on the way. -/
structure Outcome where
  result : Except Error Tree
  notes : List Note

/-- Reads the lines of a listing. -/
def parse (strict : Bool) (lines : List Text) : Outcome :=
  match Assembly.start.addBlocks strict (Block.ofLines (Line.numbered lines)) with
  | (notes, .error e) => ⟨.error e, notes⟩
  | (notes, .ok a) =>
    match a.tree with
    | none => ⟨.error .empty, notes⟩
    | some t => ⟨.ok t, notes ++ [.finished a.blocks (a.entries + 1)]⟩

end DirectoryListing.Listing
