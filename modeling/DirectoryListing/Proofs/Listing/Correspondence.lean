import DirectoryListing.Proofs.Listing.Entries
import DirectoryListing.Proofs.Listing.Places
import DirectoryListing.Proofs.Node.Addresses
import DirectoryListing.Proofs.Query.Reading
import DirectoryListing.Proofs.Search.Paths
import Mathlib.Data.List.Forall2

/-!
# Entry lines and nodes

In a strict reading no block is skipped, so each block of the listing has a directory of the tree to
itself. The children of this directory are what the entry lines of the block describe, in their
order. All other directories are empty, so the nodes below the root are one for each entry line.

## Main definitions

* `Line.Describes l n`: an entry line describes a node
* `Block.Lists b d`: the entries of a block are the children of a directory
* `Listing.holders lines t`: the directories of a tree that the blocks of a listing go to
* `Listing.Corresponds lines root holders`: the blocks of a listing and the directories they list

## Main results

* `exists_lists_of_housed`: a block that goes into the tree lists a directory there
* `Assembly.AllInside.places_eq`: where nothing is skipped, all blocks go into the tree
* `exists_corresponds_of_parse`: the nodes below the root are the entry lines
-/

namespace DirectoryListing

/-- An entry line describes a node: the node has the line, and is what is read from it. -/
structure Line.Describes (l : Line) (n : Node) : Prop where
  line : n.entry.line = l.text
  read : EntryLine.read? l.text = some (n.kind, n.entry)

/-- A block lists a directory: its entry lines describe the children, one after the other. -/
structure Block.Lists (b : Block) (d : Node) : Prop where
  directory : d.isDirectory = true
  children : List.Forall₂ Line.Describes b.entries d.children

theorem forall₂_of_map_eq_map {α β γ : Type} {f : α → γ} {g : β → γ} {xs : List α} {ys : List β}
    (h : xs.map f = ys.map g) : List.Forall₂ (fun x y => f x = g y) xs ys := by
  rw [← List.forall₂_map_right_iff, ← List.forall₂_map_left_iff, List.forall₂_eq_eq_eq]
  exact h

theorem Block.lists_of_content? {b : Block} {c : Listing.Content} {d : Node}
    (hb : b.content? = some c) (hd : d.isDirectory = true)
    (hc : d.children.map (·.tree.said) = c.entries) : b.Lists d := by
  refine ⟨hd, ?_⟩
  have read : b.entries.map (EntryLine.read? ·.text) = d.children.map (some ·.tree.said) := by
    rw [map_read?_entries hb, ← hc, List.map_map]
    rfl
  apply (forall₂_of_map_eq_map read).imp
  intro l n hl
  exact ⟨(EntryLine.read?_eq_some hl).1, hl⟩

namespace Listing

variable {strict : Bool} {lines : List Text} {t : Tree} {b : Block} {a : Assembly} {c : Content}
  {cs : List Content} {l : Text}

/-! ## Blocks that go into the tree -/

/-- **A block that goes into the tree** lists the directory at its address. -/
theorem exists_lists_of_housed (h : (parse strict lines).result = .ok t)
    {x : Tree.Address × Content} (hx : x ∈ housed lines) :
    ∃ d, (Node.ofTree t).follow x.1 = some d ∧
      ∀ b : Block, b.content? = some x.2 → b.Lists d := by
  obtain ⟨e, ts, hat, hts⟩ := (houses_of_parse h).full x hx
  obtain ⟨d, hd, htree⟩ := Node.exists_follow (n := Node.ofTree t) hat
  refine ⟨d, hd, fun b hb => Block.lists_of_content? hb ?_ ?_⟩
  · rw [Node.isDirectory, Node.kind, htree]
    rfl
  · rw [← hts, show (·.tree.said) = Tree.said ∘ Node.tree from rfl, ← List.map_map,
      Node.map_tree_children, htree]
    rfl

/-- A directory that no block goes to holds nothing. -/
theorem children_eq_nil_of_not_housed (h : (parse strict lines).result = .ok t)
    {address : Tree.Address} {d : Node} (hd : (Node.ofTree t).follow address = some d)
    (hout : address ∉ (housed lines).map (·.1)) : d.children = [] := by
  have hat := Node.map_tree_follow (Node.ofTree t) address
  rw [hd, Option.map_some] at hat
  have none : d.tree.children = [] := by
    cases htree : d.tree with
    | file e => rfl
    | directory e ts =>
      rw [htree] at hat
      exact (houses_of_parse h).empty address e ts hat.symm hout
  rwa [← Node.map_tree_children, List.map_eq_nil_iff] at none

/-- The node that an address of a tree leads to; an address that leads nowhere stands for the root. -/
def holder (t : Tree) (address : Tree.Address) : Node :=
  ((Node.ofTree t).follow address).getD (.ofTree t)

/-- The directories of a listing's tree that blocks go to, in the order of the blocks. -/
def holders (lines : List Text) (t : Tree) : List Node :=
  (housed lines).map fun x => holder t x.1

theorem follow_holder (h : (parse strict lines).result = .ok t) {x : Tree.Address × Content}
    (hx : x ∈ housed lines) : (Node.ofTree t).follow x.1 = some (holder t x.1) := by
  obtain ⟨d, hd, -⟩ := exists_lists_of_housed h hx
  rw [holder, hd, Option.getD_some]

theorem lists_holder (h : (parse strict lines).result = .ok t) {x : Tree.Address × Content}
    (hx : x ∈ housed lines) (hb : b.content? = some x.2) : b.Lists (holder t x.1) := by
  obtain ⟨d, hd, hlists⟩ := exists_lists_of_housed h hx
  rw [holder, hd, Option.getD_some]
  exact hlists b hb

theorem mem_preorder_of_mem_holders (h : (parse strict lines).result = .ok t) :
    ∀ d ∈ holders lines t, d ∈ (Node.ofTree t).preorder := by
  intro d hd
  obtain ⟨x, hx, rfl⟩ := List.mem_map.mp hd
  exact Node.mem_preorder_iff.mpr ⟨x.1, follow_holder h hx⟩

/-- No two blocks go to one directory. -/
theorem nodup_holders (h : (parse strict lines).result = .ok t) : (holders lines t).Nodup := by
  have apart := List.pairwise_map.mp (houses_of_parse h).nodup
  refine List.pairwise_map.mpr (apart.imp_of_mem fun hx hy hne heq => hne ?_)
  apply Node.follow_injective (follow_holder h hx)
  rw [heq]
  exact follow_holder h hy

/-- A node that no block goes to holds nothing. -/
theorem children_eq_nil_of_not_mem_holders (h : (parse strict lines).result = .ok t) :
    ∀ d ∈ (Node.ofTree t).preorder, d ∉ holders lines t → d.children = [] := by
  intro d hd hout
  obtain ⟨address, haddress⟩ := Node.mem_preorder_iff.mp hd
  refine children_eq_nil_of_not_housed h haddress fun hmem => hout ?_
  obtain ⟨x, hx, rfl⟩ := List.mem_map.mp hmem
  rw [Option.some.inj (haddress.symm.trans (follow_holder h hx))]
  exact List.mem_map_of_mem hx

/-! ## Blocks and what they say -/

theorem map_content?_blocks (h : (parse strict lines).result = .ok t) :
    (blocks lines).map Block.content? = (contents lines).map some := by
  obtain ⟨hread, -, -⟩ := parse_result_eq_ok.mp h
  rw [paragraphs, List.forall_mem_map] at hread
  have read : ∀ b ∈ blocks lines, b.content?.isSome = true := hread
  rw [contents_eq]
  generalize blocks lines = bs at read
  induction bs with
  | nil => rfl
  | cons b bs ih =>
    obtain ⟨hb, hbs⟩ := List.forall_mem_cons.mp read
    obtain ⟨c, hc⟩ := Option.isSome_iff_exists.mp hb
    rw [List.filterMap_cons_some hc, List.map_cons, List.map_cons, ih hbs, hc]

/-- The blocks say one entry for each entry line. -/
theorem length_entries_contents (h : (parse strict lines).result = .ok t) :
    ((contents lines).flatMap (·.entries)).length =
      ((blocks lines).flatMap Block.entries).length := by
  have read : List.Forall₂ (fun l x => EntryLine.read? l.text = some x)
      ((blocks lines).flatMap Block.entries) ((contents lines).flatMap (·.entries)) :=
    List.rel_flatMap (forall₂_of_map_eq_map (map_content?_blocks h)) fun _ _ hbc =>
      forall₂_of_map_eq_map (Block.map_read?_entries hbc)
  exact read.length_eq.symm

/-! ## Readings that skip nothing -/

namespace Assembly

/-- Every announcement leads into the tree. -/
def AllInside (a : Assembly) : Prop :=
  ∀ l p, a.announced.lookup l = some p → ∃ address, p = .inside address

theorem allInside_start : start.AllInside := nofun

theorem AllInside.place? (h : a.AllInside) (hp : (a.place? l).isSome = true) :
    ∃ address, a.place? l = some (.inside address) := by
  cases ht : a.tree with
  | none => exact ⟨[], by rw [Assembly.place?, ht]⟩
  | some t =>
    obtain ⟨p, hp⟩ := Option.isSome_iff_exists.mp hp
    rw [place?_of_tree ht] at hp ⊢
    obtain ⟨address, rfl⟩ := h l p hp
    exact ⟨address, hp⟩

/-- A block that goes into the tree announces places there. -/
theorem AllInside.add (h : a.AllInside) (hp : (a.place? c.label).isSome = true) :
    (a.add c).AllInside := by
  intro l p hl
  by_cases hm : l ∈ c.announced
  · obtain ⟨address, haddress⟩ := h.place? hp
    obtain ⟨j, e, -, -, hj⟩ := lookup_add_of_mem hm
    rw [hj, haddress, Option.getD_some] at hl
    exact ⟨address ++ [j], (Option.some.inj hl).symm⟩
  · rw [lookup_add_of_not_mem hm] at hl
    split at hl
    · cases hl
    · exact h l p hl

/-- **Where nothing is skipped**, all blocks go into the tree. -/
theorem AllInside.places_eq (h : a.AllInside) (he : a.Expects cs) :
    a.places cs = (a.housed cs).map (Place.inside ·.1) ∧ (a.housed cs).map (·.2) = cs := by
  induction cs generalizing a with
  | nil => exact ⟨rfl, rfl⟩
  | cons c cs ih =>
    obtain ⟨address, haddress⟩ := h.place? he.1
    obtain ⟨hplaces, hcs⟩ := ih (h.add he.1) he.2
    have here : a.housed [c] = [(address, c)] := by
      simp [housed, places, haddress, Place.address?]
    constructor
    · rw [housed_cons, here, places, haddress, hplaces]
      rfl
    · rw [housed_cons, here, List.map_append, hcs]
      rfl

theorem blocks_addAll (a : Assembly) (cs : List Content) :
    (a.addAll cs).blocks = a.blocks + cs.length := by
  induction cs generalizing a with
  | nil => rfl
  | cons c cs ih =>
    rw [addAll_cons, ih, List.length_cons]
    show a.blocks + 1 + cs.length = _
    omega

theorem entries_addAll (a : Assembly) (cs : List Content) :
    (a.addAll cs).entries = a.entries + (cs.flatMap (·.entries)).length := by
  induction cs generalizing a with
  | nil => rfl
  | cons c cs ih =>
    rw [addAll_cons, ih, List.flatMap_cons, List.length_append]
    show a.entries + c.entries.length + _ = _
    omega

end Assembly

/-- The last note of a listing with a tree tells how many blocks and entries were read. -/
theorem getLast?_notes (h : (parse strict lines).result = .ok t) :
    (parse strict lines).notes.getLast? = some (.finished (contents lines).length
      (((contents lines).flatMap (·.entries)).length + 1)) := by
  unfold parse at h ⊢
  rcases ha : Assembly.start.addBlocks strict (blocks lines) with ⟨notes, e | a⟩ <;>
    simp only [ha] at h ⊢
  · cases h
  · obtain ⟨-, -, rfl⟩ := Assembly.addBlocks_eq_ok.mp (congrArg Prod.snd ha)
    rw [← contents_eq] at h ⊢
    rcases ht : (Assembly.start.addAll (contents lines)).tree with _ | u <;> simp only [ht] at h ⊢
    · cases h
    · rw [List.getLast?_append, Assembly.blocks_addAll, Assembly.entries_addAll]
      simp [Assembly.start]

/-! ## The correspondence -/

/-- Each block of a listing has a directory to itself and lists it, and no other directory holds
anything. So the entry lines describe the nodes below the root, each of which comes once and is held
once, by the directory that is its parent. -/
structure Corresponds (lines : List Text) (root : Node) (holders : List Node) : Prop where
  found : List.Forall₂ (fun p d => ∃ address, p = .inside address ∧ root.follow address = some d)
    (places lines) holders
  nodup : holders.Nodup
  lists : List.Forall₂ Block.Lists (blocks lines) holders
  empty : ∀ d ∈ root.preorder, d ∉ holders → d.children = []
  source : ∀ l ∈ (blocks lines).flatMap Block.entries,
    1 ≤ l.number ∧ lines[l.number - 1]?.map Text.withoutLineEnd = some l.text
  described : List.Forall₂ Line.Describes ((blocks lines).flatMap Block.entries)
    (holders.flatMap Node.children)
  nodes : root.preorder.Perm (root :: holders.flatMap Node.children)
  once : root.preorder.Nodup
  held : ∀ n ∈ root.preorder, n ≠ root → ∃ p ∈ root.preorder, n.parent? = some p ∧
    p.isDirectory = true ∧ p.children.count n = 1 ∧ ∀ q : Node, n ∈ q.children → q = p

theorem places_eq_of_parse (h : (parse true lines).result = .ok t) :
    places lines = (housed lines).map (Place.inside ·.1) ∧
      (housed lines).map (·.2) = contents lines :=
  Assembly.allInside_start.places_eq ((parse_result_eq_ok.mp h).2.1 rfl)

/-- Each block lists the directory that it goes to. -/
theorem lists_holders (h : (parse true lines).result = .ok t) :
    List.Forall₂ Block.Lists (blocks lines) (holders lines t) := by
  have said : (blocks lines).map Block.content? = (housed lines).map (some ·.2) := by
    rw [map_content?_blocks h, ← (places_eq_of_parse h).2, List.map_map]
    rfl
  obtain ⟨hlength, hsaid⟩ := List.forall₂_iff_zip.mp (forall₂_of_map_eq_map said)
  rw [holders, List.forall₂_map_right_iff]
  refine List.forall₂_iff_zip.mpr ⟨hlength, fun {b x} hbx => ?_⟩
  exact lists_holder h (List.of_mem_zip hbx).2 (hsaid hbx)

theorem corresponds_of_parse (h : (parse true lines).result = .ok t) :
    Corresponds lines (.ofTree t) (holders lines t) where
  found := by
    rw [(places_eq_of_parse h).1, holders, List.forall₂_map_left_iff, List.forall₂_map_right_iff,
      List.forall₂_same]
    exact fun x hx => ⟨x.1, rfl, follow_holder h hx⟩
  nodup := nodup_holders h
  lists := lists_holders h
  empty := children_eq_nil_of_not_mem_holders h
  source l hl := by
    obtain ⟨b, hb, hl⟩ := List.mem_flatMap.mp hl
    apply getElem?_of_mem_blocks
    exact List.mem_flatMap.mpr ⟨b, hb, List.mem_cons_of_mem _ (List.mem_of_mem_drop hl)⟩
  described := List.rel_flatMap (lists_holders h) fun _ _ hbd => hbd.children
  nodes := Node.preorder_perm_flatMap (nodup_holders h) (mem_preorder_of_mem_holders h)
    (children_eq_nil_of_not_mem_holders h)
  once := Node.nodup_preorder _
  held _ := Node.exists_unique_parent

/-- **The nodes below the root are the entry lines**, when a listing is read strictly: none is lost,
comes twice or stands elsewhere. So all nodes are one more than the entry lines, which is what an
empty query counts and what is noted at the end. -/
theorem exists_corresponds_of_parse (h : (parse true lines).result = .ok t) :
    (∃ holders, Corresponds lines (.ofTree t) holders) ∧
      (∃ e, Query.parse [] = .ok e ∧ ∀ order,
        let o := (Search.new e (.empty order)).paths (.ofTree t)
        o.failure = none ∧ o.found.length = 1 + ((blocks lines).flatMap Block.entries).length) ∧
      (parse true lines).notes.getLast? = some (.finished (blocks lines).length
        (1 + ((blocks lines).flatMap Block.entries).length)) := by
  have hc := corresponds_of_parse h
  have size : (Node.ofTree t).preorder.length =
      1 + ((blocks lines).flatMap Block.entries).length := by
    rw [hc.nodes.length_eq, List.length_cons, hc.described.length_eq, Nat.add_comm]
  have empty : Query.parse [] = .ok .always :=
    Query.parse_eq_ok.mpr (Query.readExpressions_nil .always)
  refine ⟨⟨_, hc⟩, ⟨.always, empty, fun order => ⟨Search.failure_paths rfl order _, ?_⟩⟩, ?_⟩
  · rw [Search.length_found_paths rfl, ← size, List.countP_eq_length]
    exact fun _ _ => rfl
  · have number : (contents lines).length = (blocks lines).length := by
      rw [← List.length_map some, ← map_content?_blocks h, List.length_map]
    rw [getLast?_notes h, number, length_entries_contents h, Nat.add_comm]

/-- A listing of two directories of one name, with a block for one of them. -/
def namesakes : List Text :=
  [".:".toList, "total 0".toList, "drwxr-xr-x 2 u g 0 Jan 1 00:00 a".toList,
    "drwxr-xr-x 3 u g 0 Jan 1 00:00 a".toList, [],
    "./a:".toList, "total 0".toList, "-rw-r--r-- 1 u g 1 Jan 1 00:00 f".toList]

/-- Its tree: the block is that of the second directory. -/
def namesakesTree : Tree :=
  .directory .root [
    .directory ⟨"drwxr-xr-x 2 u g 0 Jan 1 00:00 a".toList, ['a'], 0⟩ [],
    .directory ⟨"drwxr-xr-x 3 u g 0 Jan 1 00:00 a".toList, ['a'], 0⟩ [
      .file ⟨"-rw-r--r-- 1 u g 1 Jan 1 00:00 f".toList, ['f'], 1⟩]]

theorem parse_namesakes : (parse true namesakes).result = .ok namesakesTree :=
  eq_ok_of_toOption (by decide +kernel)

theorem exists_corresponds_namesakes :
    (parse true namesakes).result = .ok namesakesTree ∧
      (∃ holders, Corresponds namesakes (.ofTree namesakesTree) holders) ∧
      (parse true namesakes).notes.getLast? = some (.finished 2 4) := by
  obtain ⟨hholders, -, hnote⟩ := exists_corresponds_of_parse parse_namesakes
  refine ⟨parse_namesakes, hholders, ?_⟩
  rw [hnote]
  decide +kernel

end Listing

end DirectoryListing
