import DirectoryListing.Proofs.Listing.Content

/-!
# Other numbers for the lines

Reading a listing carries the numbers of its lines along and never looks at them. Blocks with other
numbers come to the same tree, or to the same error at the line with its other number.

## Main definitions

* `Line.renumber f l`, `Block.renumber f b`: a line and a block with other numbers
* `Listing.Outcome.renumber f o`: an outcome with other numbers in its error and its notes

## Main results

* `Listing.Assembly.addBlocks_renumber`: reading blocks with other numbers
* `Listing.parse_eq_renumber`: listings whose blocks differ in their numbers
-/

namespace DirectoryListing

variable {f : Nat → Nat}

/-! ## Lines and blocks -/

/-- The line with another number. -/
def Line.renumber (f : Nat → Nat) (l : Line) : Line := ⟨f l.number, l.text⟩

@[simp]
theorem Line.text_renumber (l : Line) : (l.renumber f).text = l.text := rfl

namespace Block

/-- The block with other numbers. -/
def renumber (f : Nat → Nat) (b : Block) : Block := ⟨b.header.renumber f, b.body.map (·.renumber f)⟩

@[simp]
theorem label?_renumber (b : Block) : (b.renumber f).label? = b.label? := rfl

@[simp]
theorem header_renumber (b : Block) : (b.renumber f).header = b.header.renumber f := rfl

@[simp]
theorem entries_renumber (b : Block) : (b.renumber f).entries = b.entries.map (·.renumber f) :=
  List.map_drop.symm

@[simp]
theorem hasTotal_renumber (b : Block) : (b.renumber f).hasTotal = b.hasTotal := by
  rw [hasTotal, hasTotal, renumber, List.isEmpty_map]

end Block

namespace Listing

variable {strict : Bool} {a : Assembly}

/-! ## Outcomes -/

/-- The error with another number. -/
def Error.renumber (f : Nat → Nat) : Error → Error
  | malformed l r => malformed (l.renumber f) r
  | empty => empty

/-- The note with another number. -/
def Note.renumber (f : Nat → Nat) : Note → Note
  | skipped label n => skipped label (f n)
  | block label entries => block label entries
  | finished blocks nodes => finished blocks nodes

/-- The outcome with other numbers in its error and its notes. The tree has none. -/
def Outcome.renumber (f : Nat → Nat) (o : Outcome) : Outcome :=
  ⟨o.result.mapError (·.renumber f), o.notes.map (·.renumber f)⟩

/-! ## Reading -/

theorem readEntries_renumber (ls : List Line) :
    readEntries (ls.map (·.renumber f)) = (readEntries ls).mapError (·.renumber f) := by
  induction ls with
  | nil => rfl
  | cons l ls ih =>
    simp only [List.map_cons, readEntries, Line.text_renumber, ih]
    cases EntryLine.read? l.text with
    | none => rfl
    | some entry => cases readEntries ls <;> rfl

/-- One block with other numbers. -/
theorem Assembly.addBlock_renumber (strict : Bool) (a : Assembly) (b : Block) :
    a.addBlock strict (b.renumber f) =
      ((a.addBlock strict b).1.map (·.renumber f),
        (a.addBlock strict b).2.mapError (·.renumber f)) := by
  simp only [addBlock, Block.label?_renumber, Block.header_renumber, Block.entries_renumber,
    Block.hasTotal_renumber, readEntries_renumber]
  cases b.label? with
  | none => rfl
  | some label =>
    -- numbers are in the notes and the errors alone
    simp only
    rcases a.place? label with _ | place <;> cases strict <;>
      rcases readEntries b.entries with e | entries <;> cases b.hasTotal <;> rfl

/-- **Reading blocks with other numbers** leads to the same assembly, or to the same error with its
other number. -/
theorem Assembly.addBlocks_renumber (strict : Bool) (a : Assembly) (bs : List Block) :
    a.addBlocks strict (bs.map (·.renumber f)) =
      ((a.addBlocks strict bs).1.map (·.renumber f),
        (a.addBlocks strict bs).2.mapError (·.renumber f)) := by
  induction bs generalizing a with
  | nil => rfl
  | cons b bs ih =>
    rw [List.map_cons, addBlocks, addBlocks, addBlock_renumber]
    rcases a.addBlock strict b with ⟨notes, e | a'⟩
    · rfl
    · change (notes.map (·.renumber f) ++ (a'.addBlocks strict (bs.map (·.renumber f))).1,
        (a'.addBlocks strict (bs.map (·.renumber f))).2) =
          ((notes ++ (a'.addBlocks strict bs).1).map (·.renumber f),
            (a'.addBlocks strict bs).2.mapError (·.renumber f))
      rw [ih, List.map_append]

/-- **Listings whose blocks differ in their numbers** come to the same, but for the numbers. -/
theorem parse_eq_renumber {lines lines' : List Text}
    (h : blocks lines' = (blocks lines).map (·.renumber f)) (strict : Bool) :
    parse strict lines' = (parse strict lines).renumber f := by
  unfold parse
  rw [← blocks, ← blocks, h, Assembly.addBlocks_renumber]
  rcases Assembly.start.addBlocks strict (blocks lines) with ⟨notes, e | ⟨_ | t, _, n, m⟩⟩
  · rfl
  · rfl
  · have later : (notes ++ [Note.finished n (m + 1)]).map (Note.renumber f) =
        notes.map (Note.renumber f) ++ [.finished n (m + 1)] := List.map_append
    exact congrArg (Outcome.mk (.ok t)) later.symm

end Listing

end DirectoryListing
