import DirectoryListing.Proofs.Listing.Content
import DirectoryListing.Proofs.Node.Below

/-!
# The entries of a listing's tree

Every entry of the tree of a listing, that of the root apart, is what some line says, and holds that
line. It holds of the leaves that a block puts in, and putting them in changes no other entry; from
the tree it passes to the nodes. So the name of a node stands on one line, whatever the lines of the
listing hold.

## Main definitions

* `Tree.Every P t`: what the tree says of each file and directory has a property
* `Listing.IsRead kind entry`: the entry is the root's, or it is read from its line

## Main results

* `Tree.Every.graft`: a property of the entries is kept when trees with it are put in
* `Listing.every_isRead`: the entries of a listing's tree are read from their lines
* `Listing.not_mem_name`: the names in a listing's tree hold no line feed
-/

namespace DirectoryListing

/-! ## Trees -/

namespace Tree

variable {P : Kind → Entry → Prop} {t : Tree} {kids : List Tree} {kind : Kind} {e : Entry}

/-- What the tree says of each file and directory has the property. -/
inductive Every (P : Kind → Entry → Prop) : Tree → Prop
  | file {e : Entry} : P .file e → Every P (.file e)
  | directory {e : Entry} {ts : List Tree} :
    P .directory e → (∀ t ∈ ts, Every P t) → Every P (.directory e ts)

theorem Every.entry (h : t.Every P) : P t.kind t.entry := by
  cases h with
  | file he => exact he
  | directory he _ => exact he

theorem Every.children (h : t.Every P) : ∀ c ∈ t.children, c.Every P := by
  cases h with
  | file _ => exact nofun
  | directory _ hts => exact hts

theorem every_leaf (h : P kind e) : (leaf kind e).Every P := by
  cases kind with
  | file => exact .file h
  | directory => exact .directory h nofun

/-- **A property of the entries** is kept when trees with it are put in somewhere. -/
theorem Every.graft (h : t.Every P) (hkids : ∀ k ∈ kids, k.Every P) (address : Address) :
    (t.graft address kids).Every P := by
  induction address generalizing t with
  | nil =>
    cases h with
    | file he => exact .file he
    | directory he _ => exact .directory he hkids
  | cons i address ih =>
    cases h with
    | file he => exact .file he
    | directory he hts =>
      refine .directory he fun c hc => ?_
      -- a child is what it was, or it is the one that was changed
      obtain ⟨j, hj, rfl⟩ := List.mem_iff_getElem.mp hc
      rw [List.getElem_modify]
      have hmem : (_ : Tree) ∈ _ := List.getElem_mem (by simpa using hj)
      split
      · exact ih (hts _ hmem)
      · exact hts _ hmem

end Tree

/-- What holds of all entries of a tree holds of all nodes below its root. -/
theorem Tree.Every.entry_of_mem_preorder {P : Kind → Entry → Prop} {t : Tree} (h : t.Every P)
    {n : Node} (hn : n ∈ (Node.ofTree t).preorder) : P n.kind n.entry := by
  suffices ∀ n ∈ (Node.ofTree t).preorder, n.tree.Every P from (this n hn).entry
  refine Node.forall_mem_preorder h fun m c hm hc => hm.children _ ?_
  rw [← Node.map_tree_children]
  exact List.mem_map_of_mem hc

/-! ## Entry lines -/

namespace EntryLine

variable {line gap rest name : Text} {kind : Kind} {e : Entry}

/-- A name is not empty, and stands on one line. -/
theorem nameOf?_eq_some (h : nameOf? gap rest = some name) : name ≠ [] ∧ '\n' ∉ name := by
  simp only [nameOf?] at h
  generalize (if rest.isEmpty && 2 ≤ gap.length then gap.drop (gap.length - 1) else rest) = n at h
  split at h
  · cases h
  · rename_i hn
    cases h
    constructor
    · rintro rfl
      exact hn rfl
    · intro hmem
      exact hn (by simp [hmem])

theorem exists_nameOf?_of_read? (h : read? line = some (kind, e)) :
    e.line = line ∧ ∃ gap rest, nameOf? gap rest = some e.name := by
  unfold read? at h
  split at h
  · split at h
    · obtain ⟨name, hname, he⟩ := Option.map_eq_some_iff.mp h
      cases he
      exact ⟨rfl, _, _, hname⟩
    · cases h
  · cases h

/-- An entry holds the line that it is read from, and its name stands on one line. -/
theorem read?_eq_some (h : read? line = some (kind, e)) : e.line = line ∧ '\n' ∉ e.name := by
  obtain ⟨hline, gap, rest, hname⟩ := exists_nameOf?_of_read? h
  exact ⟨hline, (nameOf?_eq_some hname).2⟩

/-- The name of an entry is not empty. -/
theorem name_ne_nil_of_read? (h : read? line = some (kind, e)) : e.name ≠ [] := by
  obtain ⟨-, gap, rest, hname⟩ := exists_nameOf?_of_read? h
  exact (nameOf?_eq_some hname).1

end EntryLine

/-! ## Listings -/

namespace Listing

variable {strict : Bool} {lines : List Text} {a : Assembly} {c : Content} {cs : List Content}
  {t : Tree} {n : Node}

/-- The entry is that of the root, or it is read from its line. -/
def IsRead (kind : Kind) (e : Entry) : Prop :=
  e = .root ∨ EntryLine.read? e.line = some (kind, e)

/-- What is read from some lines is read from one of them. -/
theorem exists_of_mem_mapM {ls : List Text} {xs : List (Kind × Entry)}
    (h : ls.mapM EntryLine.read? = some xs) : ∀ x ∈ xs, ∃ l, EntryLine.read? l = some x := by
  intro x hx
  have mem : some x ∈ ls.map EntryLine.read? := mapM_eq_some.mp h ▸ List.mem_map_of_mem hx
  obtain ⟨l, -, hl⟩ := List.mem_map.mp mem
  exact ⟨l, hl⟩

/-- What a block says of its entries is read from their lines. -/
theorem Content.isRead {ls : List Text} (h : Content.of? ls = some c) :
    ∀ x ∈ c.entries, IsRead x.1 x.2 := by
  unfold Content.of? at h
  split at h
  · cases h
  · split at h
    · rename_i hxs
      cases h
      intro x hx
      obtain ⟨l, hl⟩ := exists_of_mem_mapM hxs x hx
      obtain ⟨rfl, -⟩ := EntryLine.read?_eq_some hl
      exact .inr hl
    · cases h

theorem every_leaves {entries : List (Kind × Entry)} (h : ∀ x ∈ entries, IsRead x.1 x.2) :
    ∀ k ∈ leaves entries, k.Every IsRead := by
  intro k hk
  obtain ⟨x, hx, rfl⟩ := List.mem_map.mp hk
  exact Tree.every_leaf (h x hx)

/-- A block puts in entries that are read, and changes no other. -/
theorem Assembly.every_add (ha : ∀ t, a.tree = some t → t.Every IsRead)
    (hc : ∀ x ∈ c.entries, IsRead x.1 x.2) : ∀ t, (a.add c).tree = some t → t.Every IsRead := by
  intro t ht
  cases hat : a.tree with
  | none =>
    rw [Assembly.tree_add_of_none hat] at ht
    cases ht
    exact .directory (.inl rfl) (every_leaves hc)
  | some u =>
    rw [Assembly.tree_add hat] at ht
    split at ht <;> cases ht
    · exact (ha u hat).graft (every_leaves hc) _
    · exact ha u hat

theorem Assembly.every_addAll (ha : ∀ t, a.tree = some t → t.Every IsRead)
    (hcs : ∀ c ∈ cs, ∀ x ∈ c.entries, IsRead x.1 x.2) :
    ∀ t, (a.addAll cs).tree = some t → t.Every IsRead := by
  induction cs generalizing a with
  | nil => exact ha
  | cons c cs ih =>
    obtain ⟨hc, hcs⟩ := List.forall_mem_cons.mp hcs
    exact ih (Assembly.every_add ha hc) hcs

/-- **The entries of a listing's tree** are read from their lines, that of the root apart. -/
theorem every_isRead (h : (parse strict lines).result = .ok t) : t.Every IsRead := by
  obtain ⟨-, -, ht⟩ := parse_result_eq_ok.mp h
  have start : ∀ t, Assembly.start.tree = some t → t.Every IsRead := by
    intro t ht
    cases ht
  refine Assembly.every_addAll start (fun c hc => ?_) t ht
  obtain ⟨ls, -, hls⟩ := List.mem_filterMap.mp hc
  exact Content.isRead hls

/-- **The names** of all nodes stand on one line. -/
theorem not_mem_name (h : (parse strict lines).result = .ok t) :
    ∀ n ∈ (Node.ofTree t).preorder, '\n' ∉ n.name := by
  intro n hn
  rcases (every_isRead h).entry_of_mem_preorder hn with he | he
  · rw [Node.name, he]
    exact List.not_mem_nil
  · exact (EntryLine.read?_eq_some he).2

/-! ## A listing without entries -/

/-- A listing of nothing. -/
def emptyListing : List Text := [".:".toList, "total 0".toList]

/-- Its tree. -/
def emptyTree : Tree := .directory .root []

theorem parse_emptyListing : (parse true emptyListing).result = .ok emptyTree :=
  eq_ok_of_toOption (by decide +kernel)

end Listing

end DirectoryListing
