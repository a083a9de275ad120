import DirectoryListing.Proofs.Listing.Announcements
import DirectoryListing.Proofs.Listing.Blocks

/-!
# What the blocks of a listing say

A block says which directory it describes and what the entries of this directory are. Reading is a
fold over what the blocks say: the numbers of the lines serve the notes and the errors alone, and
strictness can only refuse a block, not read it in another way.

## Main definitions

* `Listing.Content`, `Block.content?`: what a block says
* `Listing.Assembly.add`, `Listing.Assembly.addAll`: the assembly after what some blocks say
* `Listing.Assembly.Expects`: no block comes unannounced
* `Listing.Assembly.Fits`: the announcements fit the tree so far
* `Listing.paragraphs`, `Listing.contents`: the blocks of a listing and what they say

## Main results

* `Assembly.addBlocks_eq_ok`: reading blocks is adding what they say
* `Assembly.Fits.addAll`: the announcements fit the tree all along
* `parse_result_eq_ok`: the tree of a listing
-/

namespace DirectoryListing

namespace Listing

/-- What a block says: its label and its entries. -/
structure Content where
  label : Text
  entries : List (Kind × Entry)

namespace Content

/-- What the lines of a block say, when its header has a colon and its entry lines have the shape of
one. -/
def of? : List Text → Option Content
  | [] => none
  | header :: body =>
    match Block.beforeLast? ':' header, (body.drop 1).mapM EntryLine.read? with
    | some label, some entries => some ⟨label, entries⟩
    | _, _ => none

/-- The labels that a block announces. -/
def announced (c : Content) : List Text :=
  Listing.announced c.label c.entries

end Content

/-- What is read from every one of some lines. -/
theorem mapM_eq_some {α β : Type} {f : α → Option β} {xs : List α} {ys : List β} :
    xs.mapM f = some ys ↔ xs.map f = ys.map some := by
  induction xs generalizing ys with
  | nil => cases ys <;> simp
  | cons x xs ih =>
    rw [List.mapM_cons, List.map_cons]
    cases ys <;> simp [← ih, Option.bind_eq_some_iff]

theorem readEntries_eq_ok {ls : List Line} {entries : List (Kind × Entry)} :
    readEntries ls = .ok entries ↔ (ls.map (·.text)).mapM EntryLine.read? = some entries := by
  induction ls generalizing entries with
  | nil => simp [readEntries, eq_comm]
  | cons l ls ih =>
    rw [readEntries, List.map_cons, List.mapM_cons]
    rcases EntryLine.read? l.text with _ | entry
    · simp
    · rcases hls : readEntries ls with e | es
      · have none : (ls.map (·.text)).mapM EntryLine.read? = none :=
          Option.eq_none_iff_forall_ne_some.mpr fun es hes => by
            rw [← ih, hls] at hes
            cases hes
        simp [none]
      · simp [ih.mp hls, eq_comm]

end Listing

open Listing in
/-- What a block says. -/
def Block.content? (b : Block) : Option Content :=
  Content.of? b.texts

open Listing in
theorem Block.content?_eq_some {b : Block} {c : Content} :
    b.content? = some c ↔ b.label? = some c.label ∧ readEntries b.entries = .ok c.entries := by
  obtain ⟨label, entries⟩ := c
  rw [readEntries_eq_ok, content?, texts, Content.of?, Block.entries, List.map_drop, label?]
  generalize beforeLast? ':' b.header.text = l
  generalize ((b.body.map (·.text)).drop 1).mapM EntryLine.read? = es
  rcases l with _ | l <;> rcases es with _ | es <;> simp

open Listing in
/-- A block says what is read from each of its entry lines. -/
theorem Block.map_read?_entries {b : Block} {c : Content} (h : b.content? = some c) :
    b.entries.map (EntryLine.read? ·.text) = c.entries.map some := by
  have read := readEntries_eq_ok.mp (content?_eq_some.mp h).2
  rwa [mapM_eq_some, List.map_map] at read

open Listing in
theorem Block.mem_entries_iff {b : Block} {c : Content} {x : Kind × Entry}
    (h : b.content? = some c) :
    x ∈ c.entries ↔ ∃ k ∈ b.entries, EntryLine.read? k.text = some x := by
  have read : some x ∈ b.entries.map (EntryLine.read? ·.text) ↔ some x ∈ c.entries.map some := by
    rw [map_read?_entries h]
  simpa using read.symm

namespace Listing

namespace Assembly

variable {strict : Bool} {a a' : Assembly} {b : Block} {bs : List Block} {c : Content}
  {cs : List Content} {t : Tree} {label l : Text} {n : Nat}

/-! ## One block -/

/-- The assembly after what a block says; a block that was never announced goes nowhere. -/
def add (a : Assembly) (c : Content) : Assembly :=
  a.put c.label ((a.place? c.label).getD .nowhere) c.entries

/-- A block that is not refused: its entries are read. -/
theorem addBlock_of_label (hb : b.label? = some label)
    (hs : strict = true → (a.place? label).isSome = true) :
    ∃ skipped : List Note,
      (∀ l n, .skipped l n ∈ skipped → l = label ∧ n = b.header.number ∧ a.place? label = none) ∧
      a.addBlock strict b = match readEntries b.entries with
        | .error e => (skipped, .error e)
        | .ok entries =>
          (skipped ++ if b.hasTotal then [.block label entries.length] else [],
            .ok (a.add ⟨label, entries⟩)) := by
  refine ⟨if (a.place? label).isNone then [.skipped label b.header.number] else [], ?_, ?_⟩
  · intro l n h
    split at h
    · rename_i hp
      cases List.mem_singleton.mp h
      exact ⟨rfl, rfl, Option.isNone_iff_eq_none.mp hp⟩
    · cases h
  · rw [addBlock, hb]
    rcases hp : a.place? label with _ | p
    · cases strict with
      | true => simp [hp] at hs
      | false => rcases readEntries b.entries with e | entries <;> simp [add, hp]
    · rcases readEntries b.entries with e | entries <;> simp [add, hp]

/-- A strict reading refuses a block that comes without an announcement. -/
theorem addBlock_refused (hb : b.label? = some label) (hp : a.place? label = none) :
    a.addBlock true b = ([], .error (.malformed b.header .unknownDirectory)) := by
  rw [addBlock, hb]
  simp [hp]

/-- A block that is read has something to say, and is not refused. -/
theorem addBlock_eq_ok : (a.addBlock strict b).2 = .ok a' ↔
    ∃ c, b.content? = some c ∧ (strict = true → (a.place? c.label).isSome = true) ∧
      a.add c = a' := by
  simp only [Block.content?_eq_some]
  constructor
  · intro h
    cases hb : b.label? with
    | none => simp [addBlock, hb] at h
    | some label =>
      -- a strict reading that has come this far has found an announcement
      have hs : strict = true → (a.place? label).isSome = true := by
        rintro rfl
        refine Option.isSome_iff_ne_none.mpr fun hp => ?_
        rw [addBlock_refused hb hp] at h
        cases h
      obtain ⟨skipped, -, read⟩ := addBlock_of_label hb hs
      rw [read] at h
      rcases hes : readEntries b.entries with e | entries <;> rw [hes] at h
      · cases h
      · exact ⟨⟨label, entries⟩, ⟨rfl, rfl⟩, hs, Except.ok.inj h⟩
  · rintro ⟨c, ⟨hb, hes⟩, hs, rfl⟩
    obtain ⟨skipped, -, read⟩ := addBlock_of_label hb hs
    rw [read, hes]

theorem skipped_mem_addBlock (h : .skipped label n ∈ (a.addBlock false b).1) :
    b.header.number = n ∧ b.label? = some label ∧ a.place? label = none := by
  cases hb : b.label? with
  | none => simp [addBlock, hb] at h
  | some l =>
    obtain ⟨skipped, hskipped, read⟩ := @addBlock_of_label false a b l hb nofun
    have hmem : .skipped label n ∈ skipped := by
      rw [read] at h
      rcases hes : readEntries b.entries with e | entries <;> rw [hes] at h
      · exact h
      · cases hb : b.hasTotal <;> simpa [hb] using h
    obtain ⟨rfl, rfl, hp⟩ := hskipped label n hmem
    exact ⟨rfl, rfl, hp⟩

theorem place?_of_tree (h : a.tree = some t) : a.place? label = a.announced.lookup label := by
  rw [place?, h]

/-- The tree after a block, once there is one. -/
theorem tree_add (h : a.tree = some t) : (a.add c).tree = some
    (match a.announced.place c.label with
      | .inside address => t.graft address (leaves c.entries)
      | .nowhere => t) := by
  simp only [add, put, treeWith, place?_of_tree h, h, Announcements.place]
  generalize (a.announced.lookup c.label).getD .nowhere = p
  cases p <;> rfl

/-- The first block makes the root. -/
theorem tree_add_of_none (h : a.tree = none) :
    (a.add c).tree = some (.directory .root (leaves c.entries)) := by
  simp only [add, put, treeWith, h]
  rfl

theorem announced_add (h : a.tree = some t) : (a.add c).announced =
    Announcements.announceAll c.label (a.announced.place c.label) 0 c.entries
      (a.announced.drop c.label) := by
  rw [add, put, place?_of_tree h, Announcements.place]

/-- A label that a block does not announce leads to where it led, unless it is used up. -/
theorem lookup_add_of_not_mem (hl : l ∉ c.announced) :
    (a.add c).announced.lookup l = if l = c.label then none else a.announced.lookup l :=
  (Announcements.lookup_announceAll_of_not_mem hl 0).trans (Announcements.lookup_drop _ _ _)

/-- A label that a block announces leads to an entry of the block that has this label. -/
theorem lookup_add_of_mem (hl : l ∈ c.announced) :
    ∃ j e, c.entries[j]? = some (.directory, e) ∧ Path.join c.label e.name = l ∧
      ∀ a : Assembly, (a.add c).announced.lookup l =
        some (((a.place? c.label).getD .nowhere).entry j) := by
  obtain ⟨j, e, he, hname, hj⟩ := Announcements.lookup_announceAll hl
  exact ⟨j, e, he, hname, fun a => (hj _ _ 0).trans (by rw [Nat.zero_add])⟩

/-- A label that a block does not announce leads to where it led, unless it is used up. -/
theorem place_add_of_not_mem (hl : l ∉ c.announced) :
    (a.add c).announced.place l = if l = c.label then .nowhere else a.announced.place l := by
  rw [Announcements.place, lookup_add_of_not_mem hl]
  split <;> rfl

/-- A label that a block announces leads to the same entry of the block wherever the block goes. -/
theorem place_add_of_mem (hl : l ∈ c.announced) :
    ∃ j, ∀ (a : Assembly) (t : Tree), a.tree = some t →
      (a.add c).announced.place l = (a.announced.place c.label).entry j := by
  obtain ⟨j, e, -, -, hj⟩ := lookup_add_of_mem hl
  refine ⟨j, fun a t h => ?_⟩
  rw [Announcements.place, hj, place?_of_tree h]
  rfl

/-- No label leads to a directory after a block if none but that of the block did, and the block
does not put the directory in. -/
theorem free_add {address : Tree.Address} (ht : a.tree = some t)
    (hother : ∀ l, l ≠ c.label → a.announced.lookup l ≠ some (.inside address))
    (hentry : ∀ j, (a.announced.place c.label).entry j ≠ .inside address) (l : Text) :
    (a.add c).announced.lookup l ≠ some (.inside address) := by
  intro hl
  rw [← Announcements.place_eq_inside] at hl
  by_cases hm : l ∈ c.announced
  · obtain ⟨j, hj⟩ := place_add_of_mem hm
    exact hentry j (by rw [← hj a t ht, hl])
  · rw [place_add_of_not_mem hm] at hl
    split at hl
    · cases hl
    · rename_i hne
      exact hother l hne (Announcements.place_eq_inside.mp hl)

theorem isSome_tree_add (a : Assembly) (c : Content) : (a.add c).tree.isSome = true := by
  cases h : a.tree with
  | none =>
    rw [tree_add_of_none h]
    rfl
  | some t =>
    rw [tree_add h]
    split <;> rfl

/-! ## All blocks -/

/-- The assembly after what some blocks say. -/
def addAll (a : Assembly) (cs : List Content) : Assembly :=
  cs.foldl add a

theorem isSome_tree_addAll (h : a.tree.isSome = true) (cs : List Content) :
    (a.addAll cs).tree.isSome = true := by
  induction cs generalizing a with
  | nil => exact h
  | cons c cs ih => exact ih (isSome_tree_add a c)

/-- No block but the first comes without an announcement. -/
def Expects (a : Assembly) : List Content → Prop
  | [] => True
  | c :: cs => (a.place? c.label).isSome = true ∧ Expects (a.add c) cs

theorem addAll_cons (a : Assembly) (c : Content) (cs : List Content) :
    a.addAll (c :: cs) = (a.add c).addAll cs := rfl

theorem addAll_append (a : Assembly) (cs ds : List Content) :
    a.addAll (cs ++ ds) = (a.addAll cs).addAll ds := List.foldl_append

/-- A block in error ends the reading. -/
theorem addBlocks_cons_of_error {e : Error} (h : (a.addBlock strict b).2 = .error e) :
    (a.addBlocks strict (b :: bs)).2 = .error e := by
  rw [addBlocks]
  rcases hb : a.addBlock strict b with ⟨notes, r⟩
  rw [hb] at h
  cases h
  rfl

/-- After a block that is read, the others are. -/
theorem addBlocks_cons_of_ok (h : (a.addBlock strict b).2 = .ok a') :
    (a.addBlocks strict (b :: bs)).2 = (a'.addBlocks strict bs).2 := by
  rw [addBlocks]
  rcases hb : a.addBlock strict b with ⟨notes, r⟩
  rw [hb] at h
  cases h
  rfl

/-- **Reading blocks is adding what they say**, one after the other. -/
theorem addBlocks_eq_ok : (a.addBlocks strict bs).2 = .ok a' ↔
    (∀ b ∈ bs, b.content?.isSome = true) ∧
      (strict = true → a.Expects (bs.filterMap Block.content?)) ∧
      a.addAll (bs.filterMap Block.content?) = a' := by
  induction bs generalizing a with
  | nil => simp [addBlocks, Expects, addAll]
  | cons b bs ih =>
    -- the first block is in error, or the others are read after it
    cases hb : (a.addBlock strict b).2 with
    | error e =>
      simp only [addBlocks_cons_of_error hb, reduceCtorEq, false_iff, not_and,
        List.forall_mem_cons, Option.isSome_iff_exists]
      rintro ⟨⟨c, hc⟩, -⟩ hs
      rw [List.filterMap_cons_some hc] at hs
      have hok := addBlock_eq_ok.mpr ⟨c, hc, fun h => (hs h).1, rfl⟩
      rw [hb] at hok
      cases hok
    | ok a₁ =>
      obtain ⟨c, hc, hs, rfl⟩ := addBlock_eq_ok.mp hb
      simp only [addBlocks_cons_of_ok hb, ih, List.forall_mem_cons, hc, Option.isSome_some,
        true_and, List.filterMap_cons_some hc, Expects, addAll_cons]
      constructor
      · rintro ⟨h, he, ha⟩
        exact ⟨h, fun h => ⟨hs h, he h⟩, ha⟩
      · rintro ⟨h, he, ha⟩
        exact ⟨h, fun h => (he h).2, ha⟩

/-- A note of a skipped block tells of a block with its label, its number and no announcement. -/
theorem skipped_mem_addBlocks (h : .skipped label n ∈ (a.addBlocks false bs).1) :
    ∃ before b after, bs = before ++ b :: after ∧ b.header.number = n ∧ b.label? = some label ∧
      (a.addAll (before.filterMap Block.content?)).place? label = none := by
  induction bs generalizing a with
  | nil => cases h
  | cons b bs ih =>
    rw [addBlocks] at h
    have here : .skipped label n ∈ (a.addBlock false b).1 →
        ∃ before b₁ after, b :: bs = before ++ b₁ :: after ∧ b₁.header.number = n ∧
          b₁.label? = some label ∧
          (a.addAll (before.filterMap Block.content?)).place? label = none := fun h => by
      obtain ⟨hn, hl, hp⟩ := skipped_mem_addBlock h
      exact ⟨[], b, bs, rfl, hn, hl, hp⟩
    rcases hb : a.addBlock false b with ⟨notes, e | a₁⟩
    · rw [hb] at h here
      exact here h
    -- the notes of the first block come before those of the others
    · rw [hb] at h here
      rcases List.mem_append.mp h with h | h
      · exact here h
      · obtain ⟨before, b₁, after, rfl, hn, hl, hp⟩ := ih h
        obtain ⟨c, hc, -, rfl⟩ := addBlock_eq_ok.mp (congrArg Prod.snd hb)
        refine ⟨b :: before, b₁, after, rfl, hn, hl, ?_⟩
        rwa [List.filterMap_cons_some hc]

/-! ## The announcements and the tree -/

/-- The announcements fit the tree, and there are none before there is a tree. -/
def Fits (a : Assembly) : Prop :=
  match a.tree with
  | none => a.announced = []
  | some t => a.announced.Fits t

theorem fits_start : start.Fits := rfl

theorem Fits.of_tree (h : a.Fits) (ht : a.tree = some t) : a.announced.Fits t := by
  rwa [Fits, ht] at h

theorem Fits.add (h : a.Fits) (c : Content) : (a.add c).Fits := by
  cases ht : a.tree with
  | none =>
    -- the first block fills an empty root, before any announcement
    rw [Fits, ht] at h
    have root : Announcements.Fits [] (.directory .root []) := ⟨nofun, nofun⟩
    have announced : (a.add c).announced =
        Announcements.announceAll c.label (.inside []) 0 c.entries [] := by
      rw [Assembly.add, put, place?, ht, h]
      rfl
    rw [Fits, tree_add_of_none ht, announced]
    exact root.graft (a := []) rfl nofun c.label c.entries
  | some t =>
    have hw := (h.of_tree ht).drop c.label
    rw [Fits, tree_add ht, announced_add ht]
    rcases hp : a.announced.place c.label with address | _
    · have hl := Announcements.place_eq_inside.mp hp
      obtain ⟨e, he⟩ := (h.of_tree ht).empty _ _ hl
      refine hw.graft he (fun l hl' => ?_) c.label c.entries
      -- the one label that led there is used up
      rw [Announcements.lookup_drop] at hl'
      split at hl'
      · cases hl'
      · rename_i hne
        exact hne ((h.of_tree ht).unique _ _ _ hl' hl)
    · exact hw.nowhere c.label c.entries

/-- A block without entries leaves the tree as it is. -/
theorem Fits.tree_add_of_entries_eq_nil (h : a.Fits) (ht : a.tree = some t) (hc : c.entries = []) :
    (a.add c).tree = some t := by
  rw [tree_add ht]
  rcases hp : a.announced.place c.label with address | _
  · obtain ⟨e, he⟩ := (h.of_tree ht).empty _ _ (Announcements.place_eq_inside.mp hp)
    rw [hc]
    exact congrArg some (Tree.graft_eq_self he)
  · rfl

theorem Fits.addAll (h : a.Fits) (cs : List Content) : (a.addAll cs).Fits := by
  induction cs generalizing a with
  | nil => exact h
  | cons c cs ih => exact ih (h.add c)

end Assembly

/-! ## Whole listings -/

variable {strict : Bool} {lines : List Text} {t : Tree} {label : Text} {n : Nat}

/-- The blocks of a listing. -/
abbrev blocks (lines : List Text) : List Block :=
  Block.ofLines (Line.numbered lines)

/-- A line of a block stands at its number in the listing. -/
theorem getElem?_of_mem_blocks {k : Line} (h : k ∈ (blocks lines).flatMap Block.lines) :
    1 ≤ k.number ∧ lines[k.number - 1]?.map Text.withoutLineEnd = some k.text := by
  rw [Block.flatMap_lines_ofLines] at h
  exact Line.mem_numberedFrom.mp (List.mem_filter.mp h).1

/-- The blocks of a listing, without the numbers of their lines. -/
def paragraphs (lines : List Text) : List (List Text) :=
  (blocks lines).map Block.texts

/-- What the blocks of a listing say. -/
def contents (lines : List Text) : List Content :=
  (paragraphs lines).filterMap Content.of?

theorem contents_eq (lines : List Text) :
    contents lines = (blocks lines).filterMap Block.content? := List.filterMap_map

/-- What a listing comes to is what its blocks come to, and an error if they make no tree. -/
theorem result_parse (strict : Bool) (lines : List Text) : (parse strict lines).result =
    (Assembly.start.addBlocks strict (blocks lines)).2.bind fun a =>
      a.tree.elim (.error .empty) .ok := by
  unfold parse
  rcases Assembly.start.addBlocks strict (blocks lines) with ⟨notes, e | a⟩
  · rfl
  · cases ht : a.tree <;> simp [Except.bind, ht]

/-- A listing has the tree that its blocks make. -/
theorem parse_iff_addBlocks : (parse strict lines).result = .ok t ↔
    ∃ a, (Assembly.start.addBlocks strict (blocks lines)).2 = .ok a ∧ a.tree = some t := by
  rw [result_parse]
  rcases (Assembly.start.addBlocks strict (blocks lines)).2 with e | a
  · simp [Except.bind]
  · cases ht : a.tree <;> simp [Except.bind, ht]

/-- **The tree of a listing** is what its blocks say, if all of them say something and, in a strict
reading, none comes unannounced. -/
theorem parse_result_eq_ok : (parse strict lines).result = .ok t ↔
    (∀ p ∈ paragraphs lines, (Content.of? p).isSome = true) ∧
      (strict = true → Assembly.start.Expects (contents lines)) ∧
      (Assembly.start.addAll (contents lines)).tree = some t := by
  rw [contents_eq, paragraphs, List.forall_mem_map, parse_iff_addBlocks]
  constructor
  · rintro ⟨a, ha, ht⟩
    obtain ⟨hb, hs, rfl⟩ := Assembly.addBlocks_eq_ok.mp ha
    exact ⟨hb, hs, ht⟩
  · rintro ⟨hb, hs, ht⟩
    exact ⟨_, Assembly.addBlocks_eq_ok.mpr ⟨hb, hs, rfl⟩, ht⟩

theorem eq_ok_of_toOption {r : Except Error Tree} (h : r.toOption = some t) : r = .ok t := by
  cases r <;> cases h
  rfl

/-- A listing with a note of a skipped block has the block, and nothing before it announces it. -/
theorem skipped_mem_notes (h : .skipped label n ∈ (parse false lines).notes) :
    ∃ before b after, blocks lines = before ++ b :: after ∧ b.header.number = n ∧
      b.label? = some label ∧
      (Assembly.start.addAll (before.filterMap Block.content?)).place? label = none := by
  refine Assembly.skipped_mem_addBlocks ?_
  unfold parse at h
  rcases hb : Assembly.start.addBlocks false (blocks lines) with ⟨notes, e | a⟩
  · rwa [hb] at h
  · rw [hb] at h
    rcases ht : a.tree with _ | t <;> simpa [ht] using h

end Listing

end DirectoryListing
