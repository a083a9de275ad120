import DirectoryListing.Proofs.Listing.Content

/-!
# Where the blocks of a listing go

Each block that is not skipped goes to a directory of the tree, and no two go to the same one. What
the block says of its entries is then said of the children of the directory, whatever blocks follow.
A directory that no block goes to has no children.

The first block is no exception: it is read as if an empty root had announced it.

## Main definitions

* `Listing.Assembly.places`, `Listing.places`: where the entries of blocks go
* `Listing.Assembly.housed`: the blocks that go into the tree, with the addresses there
* `Listing.Assembly.Houses`: the tree holds the entries of some blocks, and no others

## Main results

* `Assembly.Houses.add`: one more block
* `houses_of_parse`: the tree of a listing holds the entries of the blocks that go into it
* `exists_eq_directory_of_parse`: the top of the tree is the root
-/

namespace DirectoryListing

namespace Tree

variable {o : Option Tree} {e : Entry} {xs : List (Kind × Entry)}

/-- What is said of a directory and its children tells that it is one. -/
theorem exists_directory_of_face (h : o.map face = some ((.directory, e), xs)) :
    ∃ ts, o = some (.directory e ts) ∧ ts.map said = xs := by
  obtain ⟨u, rfl, hu⟩ := Option.map_eq_some_iff.mp h
  cases u with
  | file e' => cases hu
  | directory e' ts =>
    cases hu
    exact ⟨ts, rfl, rfl⟩

end Tree

namespace Listing

variable {strict : Bool} {lines : List Text}

/-- The address of a place in the tree. -/
def Place.address? : Place → Option Tree.Address
  | inside address => some address
  | nowhere => none

theorem map_said_leaves (entries : List (Kind × Entry)) :
    (leaves entries).map Tree.said = entries := by
  have same : ∀ x : Kind × Entry, (Tree.leaf x.1 x.2).said = x := by
    rintro ⟨_ | _, e⟩ <;> rfl
  show (entries.map fun x => Tree.leaf x.1 x.2).map Tree.said = entries
  rw [List.map_map]
  exact (List.map_congr_left fun x _ => same x).trans (List.map_id entries)

/-- Below the entries that a block puts in there is nothing. -/
theorem eq_nil_of_at?_leaves {entries : List (Kind × Entry)} {e e' : Entry} {ts : List Tree}
    {i : Nat} {address : Tree.Address}
    (h : (Tree.directory e (leaves entries)).at? (i :: address) = some (.directory e' ts)) :
    ts = [] := by
  obtain ⟨u, hu, hat⟩ := Option.bind_eq_some_iff.mp h
  obtain ⟨x, -, rfl⟩ := List.mem_map.mp (List.mem_of_getElem? hu)
  obtain ⟨kind, entry⟩ := x
  have none : (Tree.leaf kind entry).children = [] := by cases kind <;> rfl
  rcases address with _ | ⟨j, address⟩
  · have heq : Tree.leaf kind entry = .directory e' ts := Option.some.inj hat
    rw [heq] at none
    exact none
  · simp [Tree.at?_cons, none] at hat

namespace Assembly

variable {a : Assembly} {c : Content} {cs : List Content} {t : Tree} {address : Tree.Address}
  {xs : List (Tree.Address × Content)}

/-! ## Places -/

/-- Where the entries of some blocks go, one block after the other. -/
def places (a : Assembly) : List Content → List Place
  | [] => []
  | c :: cs => (a.place? c.label).getD .nowhere :: (a.add c).places cs

/-- The blocks that go into the tree, each with the address of its directory. -/
def housed (a : Assembly) (cs : List Content) : List (Tree.Address × Content) :=
  ((a.places cs).zip cs).filterMap fun x => x.1.address?.map (·, x.2)

theorem housed_cons (a : Assembly) (c : Content) (cs : List Content) :
    a.housed (c :: cs) = a.housed [c] ++ (a.add c).housed cs := by
  simp only [housed, places, List.zip_cons_cons, List.zip_nil_left, List.filterMap_cons,
    List.filterMap_nil]
  cases ((a.place? c.label).getD .nowhere).address? <;> rfl

theorem map_fst_housed (a : Assembly) (cs : List Content) :
    (a.housed cs).map (·.1) = (a.places cs).filterMap Place.address? := by
  induction cs generalizing a with
  | nil => rfl
  | cons c cs ih =>
    rw [housed_cons, List.map_append, ih, places, List.filterMap_cons]
    rcases hp : (a.place? c.label).getD .nowhere with address | _ <;>
      simp [housed, places, hp, Place.address?]

theorem housed_of_inside (ht : a.tree = some t)
    (hl : a.announced.lookup c.label = some (.inside address)) :
    a.housed [c] = [(address, c)] := by
  simp [housed, places, place?_of_tree ht, hl, Place.address?]

theorem housed_of_nowhere (ht : a.tree = some t) (hp : a.announced.place c.label = .nowhere) :
    a.housed [c] = [] := by
  rw [Announcements.place] at hp
  simp [housed, places, place?_of_tree ht, hp, Place.address?]

theorem mem_of_mem_housed {x : Tree.Address × Content} (hx : x ∈ a.housed cs) : x.2 ∈ cs := by
  obtain ⟨y, hy, hxy⟩ := List.mem_filterMap.mp hx
  obtain ⟨address, -, rfl⟩ := Option.map_eq_some_iff.mp hxy
  exact (List.of_mem_zip hy).2

/-! ## The entries of blocks in the tree -/

/-- The tree holds the entries of some blocks, at the addresses given with them, and no others; and
no label leads to one of these addresses any more. -/
structure Houses (a : Assembly) (xs : List (Tree.Address × Content)) (t : Tree) : Prop where
  tree : a.tree = some t
  top : t.said = (.directory, .root)
  fits : a.announced.Fits t
  nodup : (xs.map (·.1)).Nodup
  full : ∀ x ∈ xs, ∃ e ts, t.at? x.1 = some (.directory e ts) ∧ ts.map Tree.said = x.2.entries
  empty : ∀ address e ts, t.at? address = some (.directory e ts) → address ∉ xs.map (·.1) → ts = []
  free : ∀ x ∈ xs, ∀ l, a.announced.lookup l ≠ some (.inside x.1)

theorem Houses.assembly_fits (h : a.Houses xs t) : a.Fits := by
  rw [Fits, h.tree]
  exact h.fits

/-- The entries of a block in the tree tell of the children of its directory. -/
theorem Houses.said_at?_concat {x : Tree.Address × Content} (h : a.Houses xs t) (hx : x ∈ xs)
    (j : Nat) : (t.at? (x.1 ++ [j])).map Tree.said = x.2.entries[j]? := by
  obtain ⟨e, ts, hts, hsaid⟩ := h.full x hx
  rw [Tree.said_at?_concat hts, hsaid]

/-- **A block that goes into the tree** fills a directory that no block before has gone to. -/
theorem Houses.add_inside (h : a.Houses xs t)
    (hl : a.announced.lookup c.label = some (.inside address)) :
    (a.add c).Houses (xs ++ [(address, c)]) (t.graft address (leaves c.entries)) := by
  obtain ⟨e, he⟩ := h.fits.empty _ _ hl
  have hp : a.announced.place c.label = .inside address := Announcements.place_eq_inside.mpr hl
  have tree : (a.add c).tree = some (t.graft address (leaves c.entries)) := by
    rw [tree_add h.tree, hp]
  have filled : (t.graft address (leaves c.entries)).at? address =
      some (.directory e (leaves c.entries)) := Tree.at?_graft_self he _
  -- an earlier directory is another one, and it does not lie below the new one, which was empty
  have apart : ∀ x ∈ xs, ¬ address <+: x.1 := by
    rintro x hx ⟨r, hr⟩
    rcases r with _ | ⟨i, r⟩
    · exact h.free x hx c.label (by rw [hl, ← hr, List.append_nil])
    · obtain ⟨e', ts, hts, -⟩ := h.full x hx
      rw [← hr, Tree.at?_append_of_empty he] at hts
      cases hts
  refine ⟨tree, (Tree.said_graft t _ _).trans h.top, (h.assembly_fits.add c).of_tree tree,
    ?_, ?_, ?_, ?_⟩
  · rw [List.map_append, List.nodup_append]
    refine ⟨h.nodup, List.pairwise_singleton _ _, fun b hb b' hb' => ?_⟩
    obtain ⟨x, hx, rfl⟩ := List.mem_map.mp hb
    obtain rfl : b' = address := by simpa using hb'
    exact fun heq => apart x hx (heq ▸ List.prefix_refl _)
  · intro x hx
    rcases List.mem_append.mp hx with hx | hx
    · obtain ⟨e', ts, hts, hsaid⟩ := h.full x hx
      have face : ((t.graft address (leaves c.entries)).at? x.1).map Tree.face =
          (t.at? x.1).map Tree.face := Tree.face_graft_of_not_prefix (apart x hx)
      rw [hts] at face
      obtain ⟨us, hus, heq⟩ := Tree.exists_directory_of_face face
      exact ⟨e', us, hus, heq.trans hsaid⟩
    · obtain rfl := List.mem_singleton.mp hx
      exact ⟨e, _, filled, map_said_leaves c.entries⟩
  · intro b e' ts hts hb
    rw [List.map_append, List.mem_append, not_or] at hb
    by_cases hab : address <+: b
    · obtain ⟨r, rfl⟩ := hab
      rcases r with _ | ⟨i, r⟩
      · exact absurd (by simp) hb.2
      · rw [Tree.at?_append, filled] at hts
        exact eq_nil_of_at?_leaves hts
    · have face : ((t.graft address (leaves c.entries)).at? b).map Tree.face =
          (t.at? b).map Tree.face := Tree.face_graft_of_not_prefix hab
      rw [hts] at face
      obtain ⟨us, hus, heq⟩ := Tree.exists_directory_of_face face.symm
      rw [h.empty b e' us hus hb.1] at heq
      exact List.map_eq_nil_iff.mp heq.symm
  · have used : ∀ l, l ≠ c.label → a.announced.lookup l ≠ some (.inside address) :=
      fun l hne hl' => hne (h.fits.unique _ _ _ hl' hl)
    intro x hx
    rcases List.mem_append.mp hx with hx | hx
    · refine free_add h.tree (fun l _ => h.free x hx l) fun j hj => apart x hx ?_
      rw [hp] at hj
      exact Place.inside.inj hj ▸ List.prefix_append address [j]
    · obtain rfl := List.mem_singleton.mp hx
      refine free_add h.tree used fun j hj => ?_
      rw [hp] at hj
      simp [Place.entry] at hj

/-- A block that goes nowhere leaves the tree alone. -/
theorem Houses.add_nowhere (h : a.Houses xs t) (hp : a.announced.place c.label = .nowhere) :
    (a.add c).Houses xs t := by
  have tree : (a.add c).tree = some t := by rw [tree_add h.tree, hp]
  refine ⟨tree, h.top, (h.assembly_fits.add c).of_tree tree, h.nodup, h.full, h.empty,
    fun x hx => ?_⟩
  refine free_add h.tree (fun l _ => h.free x hx l) fun j hj => ?_
  rw [hp] at hj
  cases hj

/-- **One more block.** -/
theorem Houses.add (h : a.Houses xs t) (c : Content) :
    ∃ t', (a.add c).Houses (xs ++ a.housed [c]) t' := by
  rcases hp : a.announced.place c.label with address | _
  · have hl := Announcements.place_eq_inside.mp hp
    rw [housed_of_inside h.tree hl]
    exact ⟨_, h.add_inside hl⟩
  · rw [housed_of_nowhere h.tree hp, List.append_nil]
    exact ⟨t, h.add_nowhere hp⟩

theorem Houses.addAll (h : a.Houses xs t) (cs : List Content) :
    ∃ t', (a.addAll cs).Houses (xs ++ a.housed cs) t' := by
  induction cs generalizing a xs t with
  | nil => exact ⟨t, by simpa [housed, places, Assembly.addAll] using h⟩
  | cons c cs ih =>
    obtain ⟨t₁, h₁⟩ := h.add c
    rw [housed_cons, addAll_cons, ← List.append_assoc]
    exact ih h₁

/-! ## The first block -/

/-- An empty root that has announced a block with the given label. -/
def rooted (label : Text) : Assembly := ⟨some (.directory .root []), [(label, .inside [])], 0, 0⟩

theorem lookup_rooted {label l : Text} {p : Place} :
    (rooted label).announced.lookup l = some p ↔ l = label ∧ p = .inside [] := by
  show List.lookup l [(label, Place.inside [])] = some p ↔ _
  rw [List.lookup_cons]
  by_cases hl : l = label
  · simp [hl, eq_comm]
  · have hb : (l == label) = false := beq_eq_false_iff_ne.mpr hl
    simp [hl, hb]

theorem houses_rooted (label : Text) : (rooted label).Houses [] (.directory .root []) where
  tree := rfl
  top := rfl
  fits := by
    constructor
    · intro l address hl
      obtain ⟨-, hp⟩ := lookup_rooted.mp hl
      cases hp
      exact ⟨_, rfl⟩
    · intro l l' address hl hl'
      rw [(lookup_rooted.mp hl).1, (lookup_rooted.mp hl').1]
  nodup := List.nodup_nil
  full := nofun
  empty address e ts hts _ := by
    rcases address with _ | ⟨i, address⟩
    · cases hts
      rfl
    · cases hts
  free := nofun

/-- **The first block** is read as if an empty root had announced it. -/
theorem add_start (c : Content) : start.add c = (rooted c.label).add c := by
  have hl : (rooted c.label).announced.lookup c.label = some (.inside []) :=
    lookup_rooted.mpr ⟨rfl, rfl⟩
  have hp : (rooted c.label).place? c.label = some (.inside []) := hl
  have used : (rooted c.label).announced.drop c.label = [] := by
    simp [rooted, Announcements.drop]
  rw [add, add, hp, put, put, used]
  rfl

theorem places_start (c : Content) (cs : List Content) :
    start.places (c :: cs) = (rooted c.label).places (c :: cs) := by
  have hp : (rooted c.label).place? c.label = some (.inside []) := lookup_rooted.mpr ⟨rfl, rfl⟩
  rw [places, places, add_start, hp]
  rfl

theorem houses_start (c : Content) (cs : List Content) :
    ∃ t, (start.addAll (c :: cs)).Houses (start.housed (c :: cs)) t := by
  have read := (houses_rooted c.label).addAll (c :: cs)
  rwa [List.nil_append, housed, ← places_start, addAll_cons, ← add_start, ← addAll_cons] at read

end Assembly

/-! ## Whole listings -/

variable {t : Tree}

/-- Where the entries of the blocks of a listing go. -/
def places (lines : List Text) : List Place :=
  Assembly.start.places (contents lines)

/-- The blocks of a listing that go into its tree, each with the address of its directory. -/
def housed (lines : List Text) : List (Tree.Address × Content) :=
  Assembly.start.housed (contents lines)

theorem contents_ne_nil_of_parse (h : (parse strict lines).result = .ok t) :
    contents lines ≠ [] := by
  obtain ⟨-, -, ht⟩ := parse_result_eq_ok.mp h
  intro hnil
  rw [hnil] at ht
  cases ht

/-- **The tree of a listing** holds the entries of the blocks that go into it, and no others. -/
theorem houses_of_parse (h : (parse strict lines).result = .ok t) :
    (Assembly.start.addAll (contents lines)).Houses (housed lines) t := by
  obtain ⟨-, -, ht⟩ := parse_result_eq_ok.mp h
  obtain ⟨c, cs, hcs⟩ := List.exists_cons_of_ne_nil (contents_ne_nil_of_parse h)
  obtain ⟨u, hu⟩ := Assembly.houses_start c cs
  rw [hcs] at ht
  obtain rfl : u = t := Option.some.inj (hu.tree.symm.trans ht)
  rwa [housed, hcs]

theorem exists_eq_directory_of_parse (h : (parse strict lines).result = .ok t) :
    ∃ ts, t = .directory .root ts := by
  have top := (houses_of_parse h).top
  cases t with
  | file e => cases top
  | directory e ts =>
    cases top
    exact ⟨ts, rfl⟩

end Listing

end DirectoryListing
