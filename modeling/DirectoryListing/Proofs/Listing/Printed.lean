import DirectoryListing.Proofs.Listing.Content
import DirectoryListing.Proofs.Listing.EntryLines
import DirectoryListing.Proofs.Listing.Labels

/-!
# Printed listings

A tree is printed block by block, each directory before those in it. A block is printed as a header,
a total, a line for each entry and a blank line. What the blocks of the printed listing say is what
was printed.

## Main definitions

* `Tree.IsListed`, `Tree.AreListed`: trees that can be printed
* `Listing.Layout`: the totals and the blank lines, which nothing is read from
* `Listing.Layout.print`: the listing of the trees in a root with a given label
* `Listing.Content.ofTrees`: what the blocks below the root say

## Main results

* `Listing.says_lines`: what the blocks of a printed listing say
* `Listing.Layout.lines_print`: the lines of a printed listing
-/

namespace DirectoryListing

/-! ## Trees that can be printed -/

namespace Tree

mutual

/-- A tree in which every line is an entry line for its entry, every name is one that a listing may
hold, and the directories in one directory have different names. -/
def IsListed : Tree → Prop
  | file e => e.IsPrinted .file ∧ EntryLine.IsName .file e.name
  | directory e ts => (e.IsPrinted .directory ∧ EntryLine.IsName .directory e.name) ∧ AreListed ts

/-- Trees next to each other that can be printed. -/
def AreListed : List Tree → Prop
  | [] => True
  | t :: ts => t.IsListed ∧
    (∀ u ∈ ts, t.kind = .directory → u.kind = .directory → u.name ≠ t.name) ∧ AreListed ts

end

/-- The top of a tree, without what is below it. -/
def top (t : Tree) : Tree :=
  leaf t.kind t.entry

theorem top_directory (e : Entry) (ts : List Tree) : (directory e ts).top = directory e [] := rfl

variable {t u : Tree} {ts : List Tree}

theorem IsListed.entry (h : t.IsListed) :
    t.entry.IsPrinted t.kind ∧ EntryLine.IsName t.kind t.name := by
  cases t with
  | file e => exact h
  | directory e ts => exact h.1

theorem IsListed.segment (h : t.IsListed) (ht : t.kind = .directory) : Path.IsSegment t.name :=
  ⟨h.entry.2.ne_nil, h.entry.2.segment ht⟩

theorem AreListed.of_mem (h : AreListed ts) (ht : t ∈ ts) : t.IsListed := by
  induction ts with
  | nil => cases ht
  | cons u ts ih =>
    rcases List.mem_cons.mp ht with rfl | ht
    · exact h.1
    · exact ih h.2.2 ht

/-- A directory is known among its siblings by its name. -/
theorem AreListed.index_unique (h : AreListed ts) {i j : Nat} (hi : ts[i]? = some t)
    (hj : ts[j]? = some u) (ht : t.kind = .directory) (hu : u.kind = .directory)
    (hname : t.name = u.name) : i = j := by
  -- by the siblings; the name of the first differs from that of any later directory
  induction ts generalizing i j with
  | nil => simp at hi
  | cons v ts ih =>
    rcases i with _ | i <;> rcases j with _ | j
    · rfl
    · cases hi
      exact absurd hname.symm (h.2.1 u (List.mem_of_getElem? hj) ht hu)
    · cases hj
      exact absurd hname (h.2.1 t (List.mem_of_getElem? hi) hu ht)
    · exact congrArg _ (ih h.2.2 hi hj)

end Tree

namespace Listing

/-! ## Printing -/

/-- The lines of a listing that nothing is read from: the total of each block and the blank line
after it, by the label of the block. -/
structure Layout where
  total : Text → Text
  gap : Text → Text
  total_plain : ∀ label, (total label).isBlank = false
  total_line : ∀ label, '\n' ∉ total label
  gap_blank : ∀ label, (gap label).isBlank = true
  gap_line : ∀ label, '\n' ∉ gap label

namespace Layout

/-- The same total for each block, and empty lines after them. -/
def plain : Layout where
  total _ := "total 0".toList
  gap _ := []
  total_plain _ := by decide
  total_line _ := by decide
  gap_blank _ := rfl
  gap_line _ := List.not_mem_nil

/-- The lines of a block. -/
def block (L : Layout) (label : Text) (ts : List Tree) : List Text :=
  (label ++ [':']) :: L.total label :: ts.map (·.entry.line) ++ [L.gap label]

mutual

/-- The lines of the blocks for a tree in a directory with the given label. -/
def ofTree (L : Layout) (parent : Text) : Tree → List Text
  | .file _ => []
  | .directory e ts =>
    L.block (Path.join parent e.name) ts ++ L.ofTrees (Path.join parent e.name) ts

/-- The lines of the blocks for the trees in a directory with the given label. -/
def ofTrees (L : Layout) (label : Text) : List Tree → List Text
  | [] => []
  | t :: ts => L.ofTree label t ++ L.ofTrees label ts

end

/-- The lines of the listing of a root with the given label. -/
def lines (L : Layout) (root : Text) (ts : List Tree) : List Text :=
  L.block root ts ++ L.ofTrees root ts

/-- The listing of a root with the given label. -/
def print (L : Layout) (root : Text) (ts : List Tree) : Text :=
  (L.lines root ts).flatMap (· ++ ['\n'])

end Layout

namespace Content

/-- What the block of a directory says. -/
def ofDirectory (label : Text) (ts : List Tree) : Content :=
  ⟨label, ts.map fun t => (t.kind, t.entry)⟩

@[simp] theorem label_ofDirectory (label : Text) (ts : List Tree) :
    (ofDirectory label ts).label = label := rfl

@[simp] theorem leaves_ofDirectory (label : Text) (ts : List Tree) :
    leaves (ofDirectory label ts).entries = ts.map Tree.top := List.map_map

mutual

/-- What the blocks for a tree say. -/
def ofTree (parent : Text) : Tree → List Content
  | .file _ => []
  | .directory e ts =>
    ofDirectory (Path.join parent e.name) ts :: ofTrees (Path.join parent e.name) ts

/-- What the blocks for the trees in a directory say. -/
def ofTrees (label : Text) : List Tree → List Content
  | [] => []
  | t :: ts => ofTree label t ++ ofTrees label ts

end

end Content

/-! ## What a printed listing says -/

/-- The blocks of a listing say something, and this is what. -/
def Says (lines : List Text) (cs : List Content) : Prop :=
  (paragraphs lines).map Content.of? = cs.map some

variable {lines : List Text} {cs : List Content} {L : Layout} {label : Text} {ts : List Tree}

theorem Says.contents (h : Says lines cs) : contents lines = cs :=
  calc Listing.contents lines
      = ((paragraphs lines).map Content.of?).filterMap id := by
        rw [List.filterMap_map]
        rfl
    _ = (cs.map some).filterMap id := by rw [h]
    _ = cs := by
      rw [List.filterMap_map]
      exact List.filterMap_some

theorem Says.readable (h : Says lines cs) :
    ∀ p ∈ paragraphs lines, (Content.of? p).isSome = true := by
  intro p hp
  have hmem : Content.of? p ∈ cs.map some := h ▸ List.mem_map_of_mem hp
  obtain ⟨c, -, hc⟩ := List.mem_map.mp hmem
  rw [← hc, Option.isSome_some]

theorem says_nil : Says [] [] := by
  rw [Says, paragraphs, blocks, Line.numbered, Line.numberedFrom, Block.ofLines]
  rfl

/-- A run of lines that are not blank, and a blank line after it. -/
theorem paragraphs_run {run rest : List Text} {header gap : Text}
    (hrun : ∀ t ∈ header :: run, t.isBlank = false) (hgap : gap.isBlank = true) :
    paragraphs (header :: run ++ gap :: rest) =
      (header :: run).map Text.withoutLineEnd :: paragraphs rest := by
  have plain : ∀ k ∈ Line.numberedFrom 1 (header :: run), Block.inBlock k = true := by
    intro k hk
    have hmem := List.mem_map_of_mem (f := (·.text)) hk
    rw [Line.map_text_numberedFrom] at hmem
    obtain ⟨t, ht, hkt⟩ := List.mem_map.mp hmem
    simp [Line.isBlank, ← hkt, Text.isBlank_withoutLineEnd, hrun t ht]
  have blank : Line.isBlank ⟨1 + (header :: run).length, gap.withoutLineEnd⟩ = true := by
    rw [Line.isBlank, Text.isBlank_withoutLineEnd, hgap]
  -- the lines behind the gap have other numbers than on their own
  have later : (Block.ofLines (Line.numberedFrom (1 + (header :: run).length + 1) rest)).map
      Block.texts = paragraphs rest := by
    refine Block.map_texts_ofLines ?_
    rw [Line.numbered, Line.map_text_numberedFrom, Line.map_text_numberedFrom]
  rw [paragraphs, blocks, Line.numbered, Line.numberedFrom_append, Line.numberedFrom_cons _ gap,
    Block.ofLines_append _ (Block.ends_cons.mpr blank), Block.ofLines_cons_of_isBlank blank,
    List.map_append, later, Line.numberedFrom, Block.ofLines_run plain]
  simp [Block.texts, Line.map_text_numberedFrom]

/-- What stands before the last colon of a header. -/
theorem beforeLast?_header (label : Text) : Block.beforeLast? ':' (label ++ [':']) = some label :=
  Block.beforeLast?_append List.not_mem_nil label

/-- The entry lines of trees are read back. -/
theorem mapM_read?_of_areListed (hts : Tree.AreListed ts) :
    (ts.map (·.entry.line)).mapM EntryLine.read? = some (ts.map fun t => (t.kind, t.entry)) := by
  induction ts with
  | nil => rfl
  | cons t ts ih =>
    obtain ⟨hprinted, hname⟩ := hts.1.entry
    rw [List.map_cons, List.mapM_cons, hprinted.read? hname, ih hts.2.2]
    rfl

/-- What a printed block says, and the blocks after it. -/
theorem Says.block {rest : List Text} (h : Says rest cs) (L : Layout) (label : Text)
    (hts : Tree.AreListed ts) :
    Says ((L.block label ts).map (· ++ ['\n']) ++ rest) (.ofDirectory label ts :: cs) := by
  have entry : ∀ t ∈ ts, t.entry.line.isBlank = false ∧
      (t.entry.line ++ ['\n']).withoutLineEnd = t.entry.line := by
    intro t ht
    obtain ⟨hprinted, hname⟩ := (hts.of_mem ht).entry
    obtain ⟨hplain, -, hends⟩ := hprinted.line hname
    exact ⟨hplain, Text.withoutLineEnd_append hends⟩
  have plain : ∀ t ∈ (label ++ [':'] ++ ['\n']) :: (L.total label ++ ['\n']) ::
      ts.map (·.entry.line ++ ['\n']), t.isBlank = false := by
    simp only [List.forall_mem_cons, List.forall_mem_map, Text.isBlank_append, L.total_plain,
      Bool.false_and, true_and]
    refine ⟨?_, fun t ht => by rw [(entry t ht).1, Bool.false_and]⟩
    rw [show Text.isBlank [':'] = false from rfl, Bool.and_false, Bool.false_and]
  have blank : Text.isBlank (L.gap label ++ ['\n']) = true := by
    rw [Text.isBlank_append, L.gap_blank]
    rfl
  -- what is not blank ends where the gap begins
  have split : (L.block label ts).map (· ++ ['\n']) ++ rest =
      ((label ++ [':'] ++ ['\n']) :: (L.total label ++ ['\n']) ::
        ts.map (·.entry.line ++ ['\n'])) ++ (L.gap label ++ ['\n']) :: rest := by
    simp [Layout.block]
  have header : (label ++ [':'] ++ ['\n']).withoutLineEnd = label ++ [':'] :=
    Text.withoutLineEnd_append (by simp [Text.isLineEnd])
  have entries : (ts.map (·.entry.line ++ ['\n'])).map Text.withoutLineEnd =
      ts.map (·.entry.line) := by
    rw [List.map_map]
    exact List.map_congr_left fun t ht => (entry t ht).2
  rw [Says, split, paragraphs_run plain blank, List.map_cons, List.map_cons, h, List.map_cons,
    header, List.map_cons, entries, Content.of?, beforeLast?_header, List.drop_one, List.tail_cons,
    mapM_read?_of_areListed hts]
  rfl

mutual

/-- What the blocks printed for a tree say, and the blocks after them. -/
theorem Says.ofTree (L : Layout) : (t : Tree) → t.IsListed → (parent : Text) →
    {rest : List Text} → {cs : List Content} → Says rest cs →
    Says ((L.ofTree parent t).map (· ++ ['\n']) ++ rest) (Content.ofTree parent t ++ cs)
  | .file e, _, _, _, _, h => by simpa [Layout.ofTree, Content.ofTree] using h
  | .directory e ts, ht, parent, rest, cs, h => by
    have below := Says.ofTrees L ts ht.2 (Path.join parent e.name) h
    have here := below.block L (Path.join parent e.name) ht.2
    rwa [Layout.ofTree, Content.ofTree, List.map_append, List.append_assoc]

/-- What the blocks printed for the trees in a directory say, and the blocks after them. -/
theorem Says.ofTrees (L : Layout) : (ts : List Tree) → Tree.AreListed ts → (label : Text) →
    {rest : List Text} → {cs : List Content} → Says rest cs →
    Says ((L.ofTrees label ts).map (· ++ ['\n']) ++ rest) (Content.ofTrees label ts ++ cs)
  | [], _, _, _, _, h => by simpa [Layout.ofTrees, Content.ofTrees] using h
  | t :: ts, hts, label, rest, cs, h => by
    have later := Says.ofTrees L ts hts.2.2 label h
    have here := Says.ofTree L t hts.1 label later
    rwa [Layout.ofTrees, Content.ofTrees, List.map_append, List.append_assoc, List.append_assoc]

end

/-- **What a printed listing says** is what was printed. -/
theorem says_lines (L : Layout) (root : Text) (hts : Tree.AreListed ts) :
    Says ((L.lines root ts).map (· ++ ['\n']))
      (.ofDirectory root ts :: Content.ofTrees root ts) := by
  have below := Says.ofTrees L ts hts root says_nil
  have here := below.block L root hts
  rwa [Layout.lines, List.map_append, ← List.append_nil (List.map _ (L.ofTrees root ts)),
    ← List.append_nil (Content.ofTrees root ts)]

/-! ## The lines of a printed listing -/

namespace Layout

theorem line_join {parent name : Text} (hparent : '\n' ∉ parent) (hname : '\n' ∉ name) :
    '\n' ∉ Path.join parent name := by
  unfold Path.join
  split
  · exact hname
  · split <;> simp [hparent, hname]

theorem line_block (L : Layout) (hlabel : '\n' ∉ label) (hts : Tree.AreListed ts) :
    ∀ t ∈ L.block label ts, '\n' ∉ t := by
  have entry : ∀ t ∈ ts, '\n' ∉ t.entry.line := fun t ht => by
    obtain ⟨hprinted, hname⟩ := (hts.of_mem ht).entry
    exact (hprinted.line hname).2.1
  simp only [block, List.mem_append, List.mem_cons, List.mem_map, List.not_mem_nil, or_false]
  rintro t ((rfl | rfl | ⟨u, hu, rfl⟩) | rfl)
  · simp [hlabel]
  · exact L.total_line label
  · exact entry u hu
  · exact L.gap_line label

mutual

theorem line_ofTree (L : Layout) : (t : Tree) → t.IsListed → (parent : Text) → '\n' ∉ parent →
    ∀ line ∈ L.ofTree parent t, '\n' ∉ line
  | .file e, _, _, _ => by simp [ofTree]
  | .directory e ts, ht, parent, hparent => by
    have hlabel := line_join hparent ht.1.2.line
    rw [ofTree]
    exact List.forall_mem_append.mpr
      ⟨L.line_block hlabel ht.2, line_ofTrees L ts ht.2 (Path.join parent e.name) hlabel⟩

theorem line_ofTrees (L : Layout) : (ts : List Tree) → Tree.AreListed ts → (label : Text) →
    '\n' ∉ label → ∀ line ∈ L.ofTrees label ts, '\n' ∉ line
  | [], _, _, _ => by simp [ofTrees]
  | t :: ts, hts, label, hlabel => by
    rw [ofTrees]
    exact List.forall_mem_append.mpr
      ⟨line_ofTree L t hts.1 label hlabel, line_ofTrees L ts hts.2.2 label hlabel⟩

end

/-- **The lines of a printed listing** are those that were printed. -/
theorem lines_print (L : Layout) {root : Text} (hroot : '\n' ∉ root) (hts : Tree.AreListed ts) :
    (L.print root ts).lines = (L.lines root ts).map (· ++ ['\n']) := by
  refine Text.lines_flatMap ?_
  rw [lines]
  exact List.forall_mem_append.mpr ⟨L.line_block hroot hts, L.line_ofTrees ts hts root hroot⟩

end Layout

end Listing

end DirectoryListing
