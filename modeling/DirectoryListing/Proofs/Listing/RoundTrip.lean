import DirectoryListing.Listing.Source
import DirectoryListing.Proofs.Listing.Printed

/-!
# Reading back a printed listing

A printed listing is read back as the tree that was printed. The blocks for a tree fill the one
directory that their first label leads to, and touch no label but those under it. So while the
blocks for a tree are read, the labels of its siblings go on leading to where these stand.

## Main definitions

* `Listing.Assembly.Awaits`: the labels of the directories among some siblings lead to them
* `Listing.Assembly.Fills`: what reading some blocks does to the tree and the labels

## Main results

* `Assembly.fills_block`: the block of a directory fills it
* `Assembly.fills_ofTrees`: the blocks for siblings fill each of them
* `load_print`: a printed listing is read back
-/

namespace DirectoryListing.Listing

namespace Assembly

variable {a : Assembly} {cs ds : List Content} {t t' : Tree} {label l : Text}
  {address : Tree.Address} {ts : List Tree}

/-! ## Reading part of a listing -/

/-- Reading some blocks refuses none, turns the tree into another one, and touches the labels of the
given kind only. -/
structure Fills (a : Assembly) (cs : List Content) (t : Tree) (touches : Text → Prop) : Prop where
  expects : a.Expects cs
  tree : (a.addAll cs).tree = some t
  frame : ∀ l, ¬ touches l → (a.addAll cs).announced.lookup l = a.announced.lookup l

theorem Fills.nil (h : a.tree = some t) (touches : Text → Prop) : a.Fills [] t touches :=
  ⟨trivial, h, fun _ _ => rfl⟩

theorem Expects.append (h : a.Expects cs) (h' : (a.addAll cs).Expects ds) :
    a.Expects (cs ++ ds) := by
  induction cs generalizing a with
  | nil => exact h'
  | cons c cs ih => exact ⟨h.1, ih h.2 h'⟩

/-- Reading goes on where it stopped. -/
theorem Fills.append {p q r : Text → Prop} (h : a.Fills cs t p) (h' : (a.addAll cs).Fills ds t' q)
    (hp : ∀ l, p l → r l) (hq : ∀ l, q l → r l) : a.Fills (cs ++ ds) t' r where
  expects := h.expects.append h'.expects
  tree := by rw [addAll_append, h'.tree]
  frame l hl := by
    rw [addAll_append, h'.frame l fun hc => hl (hq l hc), h.frame l fun hc => hl (hp l hc)]

/-- The labels of the directories among siblings, the first of which has position `k` in the
directory at the address, lead to these directories. -/
def Awaits (a : Assembly) (label : Text) (address : Tree.Address) (k : Nat) (ts : List Tree) :
    Prop :=
  ∀ j t, ts[j]? = some t → t.kind = .directory →
    a.announced.lookup (Path.join label t.name) = some (.inside (address ++ [k + j]))

/-- The path is the label of one of the directories among siblings, or under it. -/
def UnderSome (label : Text) (ts : List Tree) (l : Text) : Prop :=
  ∃ t ∈ ts, t.kind = .directory ∧ Path.Under (Path.join label t.name) l

/-- What is under a directory of a directory is under the latter. -/
theorem UnderSome.under (h : UnderSome label ts l) (hlabel : Path.stem label = label ++ ['/'])
    (hts : Tree.AreListed ts) : Path.Under label l := by
  obtain ⟨t, ht, hkind, hunder⟩ := h
  exact hunder.of_join hlabel ((hts.of_mem ht).segment hkind)

/-! ## The block of a directory -/

/-- What a directory among siblings announces leads to it, since no other has its name. -/
theorem lookup_announceAll_of_areListed (hts : Tree.AreListed ts) {j : Nat}
    (hj : ts[j]? = some t) (ht : t.kind = .directory) (label : Text) (p : Place)
    (w : Announcements) :
    (Announcements.announceAll label p 0 (Content.ofDirectory label ts).entries w).lookup
      (Path.join label t.name) = some (p.entry j) := by
  have hmem : Path.join label t.name ∈
      Listing.announced label (Content.ofDirectory label ts).entries := by
    refine List.mem_filterMap.mpr ⟨(t.kind, t.entry), ?_, by rw [ht]; rfl⟩
    exact List.mem_map_of_mem (f := fun t => (t.kind, t.entry)) (List.mem_of_getElem? hj)
  -- it leads to one of the directories that have this label, and there is only one
  obtain ⟨i, e, hi, hlabel, hlookup⟩ := Announcements.lookup_announceAll hmem
  rw [Content.ofDirectory, List.getElem?_map] at hi
  obtain ⟨u, hu, heq⟩ := Option.map_eq_some_iff.mp hi
  obtain ⟨hkind, rfl⟩ := Prod.mk.inj heq
  have hname : u.name = t.name := Path.join_injective
    ((hts.of_mem (List.mem_of_getElem? hu)).segment hkind)
    ((hts.of_mem (List.mem_of_getElem? hj)).segment ht) hlabel
  rw [hlookup, hts.index_unique hu hj hkind ht hname, Nat.zero_add]

/-- A directory announces labels of directories in it. -/
theorem underSome_of_mem_announced (hl : l ∈ (Content.ofDirectory label ts).announced) :
    UnderSome label ts l := by
  obtain ⟨⟨kind, e⟩, hmem, hsome⟩ := List.mem_filterMap.mp hl
  obtain ⟨t, ht, heq⟩ := List.mem_map.mp hmem
  obtain ⟨rfl, rfl⟩ := Prod.mk.inj heq
  refine ⟨t, ht, ?_⟩
  cases hkind : t.kind with
  | file => simp [hkind] at hsome
  | directory =>
    simp only [hkind, Option.some.injEq] at hsome
    exact ⟨rfl, .inl hsome.symm⟩

/-- **The block of a directory** fills it, and its directories await their own blocks. -/
theorem fills_block (ht : a.tree = some t) (hl : a.announced.lookup label = some (.inside address))
    (hts : Tree.AreListed ts) :
    a.Fills [.ofDirectory label ts] (t.graft address (ts.map Tree.top))
        (fun l => l = label ∨ UnderSome label ts l) ∧
      (a.add (.ofDirectory label ts)).Awaits label address 0 ts := by
  have hp : a.announced.place label = .inside address := Announcements.place_eq_inside.mpr hl
  have tree : (a.add (.ofDirectory label ts)).tree =
      some (t.graft address (ts.map Tree.top)) := by
    rw [tree_add ht, Content.label_ofDirectory, hp, Content.leaves_ofDirectory]
  have announced : (a.add (.ofDirectory label ts)).announced =
      Announcements.announceAll label (.inside address) 0 (Content.ofDirectory label ts).entries
        (a.announced.drop label) := by
    rw [announced_add ht, Content.label_ofDirectory, hp]
  refine ⟨⟨⟨?_, trivial⟩, tree, fun l hne => ?_⟩, fun j u hj hu => ?_⟩
  · rw [place?_of_tree ht]
    exact Option.isSome_of_eq_some hl
  · obtain ⟨hlabel, hunder⟩ := not_or.mp hne
    have hnew : l ∉ Listing.announced label (Content.ofDirectory label ts).entries :=
      fun hc => hunder (underSome_of_mem_announced hc)
    rw [addAll_cons, addAll, List.foldl_nil, announced,
      Announcements.lookup_announceAll_of_not_mem hnew, Announcements.lookup_drop, if_neg hlabel]
  · rw [announced, lookup_announceAll_of_areListed hts hj hu, Nat.zero_add, Place.entry]

/-! ## Trees -/

/-- The trees in a directory after one of them, a directory, has been filled. -/
theorem graft_after (t : Tree) (address : Tree.Address) (e : Entry) (us before after : List Tree) :
    (t.graft address (before ++ .directory e [] :: after)).graft (address ++ [before.length]) us =
      t.graft address (before ++ .directory e us :: after) := by
  rw [Tree.graft_graft, List.modify_eq_take_drop, List.take_left, List.drop_left]
  rfl

mutual

/-- The blocks for a tree, whose top stands between its siblings already. -/
theorem fills_ofTree : (u : Tree) → u.IsListed → {a : Assembly} → {t : Tree} → {label : Text} →
    {address : Tree.Address} → (before after : List Tree) →
    a.tree = some (t.graft address (before ++ u.top :: after)) →
    (u.kind = .directory → a.announced.lookup (Path.join label u.name) =
      some (.inside (address ++ [before.length]))) →
    a.Fills (Content.ofTree label u) (t.graft address (before ++ u :: after))
      (fun l => u.kind = .directory ∧ Path.Under (Path.join label u.name) l)
  | .file e, _, a, t, label, address, before, after, ht, _ => Fills.nil ht _
  | .directory e us, hu, a, t, label, address, before, after, ht, hl => by
    have hsegment : Path.IsSegment e.name := hu.segment rfl
    -- first its own block, which puts in the tops, and then the blocks for these
    obtain ⟨hblock, hawaits⟩ := fills_block ht (hl rfl) hu.2
    have hbelow := fills_ofTrees us hu.2 [] hblock.tree hawaits
    rw [List.nil_append, Tree.top_directory, graft_after] at hbelow
    refine hblock.append hbelow ?_ ?_
    · rintro l (rfl | hl)
      · exact ⟨rfl, Path.under_refl _⟩
      · exact ⟨rfl, hl.under (hsegment.stem_join label) hu.2⟩
    · exact fun l hl => ⟨rfl, hl.under (hsegment.stem_join label) hu.2⟩

/-- The blocks for siblings, whose tops stand after others that are complete. -/
theorem fills_ofTrees : (us : List Tree) → Tree.AreListed us → {a : Assembly} → {t : Tree} →
    {label : Text} → {address : Tree.Address} → (before : List Tree) →
    a.tree = some (t.graft address (before ++ us.map Tree.top)) →
    a.Awaits label address before.length us →
    a.Fills (Content.ofTrees label us) (t.graft address (before ++ us)) (UnderSome label us)
  | [], _, a, t, label, address, before, ht, _ => Fills.nil ht _
  | u :: us, hus, a, t, label, address, before, ht, hawaits => by
    have hfirst := fills_ofTree u hus.1 before (us.map Tree.top) ht fun hu => hawaits 0 u rfl hu
    -- the blocks for the first tree leave the labels of its siblings alone
    have hrest : (a.addAll (Content.ofTree label u)).Awaits label address
        (before ++ [u]).length us := by
      intro j v hj hv
      have hmem := List.mem_of_getElem? hj
      rw [hfirst.frame, hawaits (j + 1) v hj hv, List.length_append, List.length_singleton,
        Nat.add_assoc, Nat.add_comm 1 j]
      rintro ⟨hu, hunder⟩
      exact Path.not_under_join (hus.1.segment hu) ((hus.2.2.of_mem hmem).segment hv)
        (hus.2.1 v hmem hu hv) label hunder
    have hlater := fills_ofTrees us hus.2.2 (t := t) (before ++ [u])
      (by rw [hfirst.tree, List.append_assoc, List.singleton_append]) hrest
    rw [List.append_assoc, List.singleton_append] at hlater
    refine hfirst.append hlater ?_ ?_
    · exact fun l ⟨hu, hunder⟩ => ⟨u, List.mem_cons_self, hu, hunder⟩
    · exact fun l ⟨v, hv, hkind, hunder⟩ => ⟨v, List.mem_cons_of_mem u hv, hkind, hunder⟩

end

/-- The blocks for the root and for what is in it. -/
theorem fills_root (root : Text) (hts : Tree.AreListed ts) :
    start.Expects (.ofDirectory root ts :: Content.ofTrees root ts) ∧
      (start.addAll (.ofDirectory root ts :: Content.ofTrees root ts)).tree =
        some (.directory .root ts) := by
  have tree : (start.add (.ofDirectory root ts)).tree =
      some (Tree.graft [] ([] ++ ts.map Tree.top) (.directory .root [])) :=
    congrArg (fun us => some (Tree.directory .root us)) (Content.leaves_ofDirectory root ts)
  -- the first block needs no announcement, whatever its label
  have awaits : (start.add (.ofDirectory root ts)).Awaits root [] 0 ts := by
    intro j u hj hu
    refine (lookup_announceAll_of_areListed hts hj hu root (.inside []) []).trans ?_
    rw [Place.entry, Nat.zero_add]
  have filled := fills_ofTrees ts hts [] tree awaits
  exact ⟨⟨rfl, filled.expects⟩, filled.tree⟩

end Assembly

/-! ## Whole listings -/

variable {L : Layout} {root : Text} {ts : List Tree} {o : Options}

/-- **A printed listing is read back** as what was printed, whichever way it is read. -/
theorem load_print (L : Layout) (hroot : '\n' ∉ root) (hts : Tree.AreListed ts)
    (ho : o.problems = []) :
    (load o (.text (L.print root ts))).result = .ok (.directory .root ts) := by
  have printed := says_lines L root hts
  obtain ⟨expects, tree⟩ := Assembly.fills_root root hts
  have read : (parse o.strict (L.print root ts).lines).result = .ok (.directory .root ts) := by
    rw [L.lines_print hroot hts, parse_result_eq_ok, printed.contents]
    exact ⟨printed.readable, fun _ => expects, tree⟩
  unfold Options.problems at ho
  unfold load
  split at ho
  · rename_i encoding hencoding
    rw [hencoding]
    exact congrArg (Except.mapError Error.fault) read
  · cases ho

/-- A directory with a file and an empty directory in it, and a file of the same name. -/
def nested : List Tree :=
  [.directory (.plain .directory "a:".toList 4096)
      [.file (.plain .file "f: 1".toList 5), .directory (.plain .directory ['b'] 0) []],
    .file (.plain .file "a:".toList 12)]

theorem areListed_nested : Tree.AreListed nested := by
  have file : ∀ name size, EntryLine.IsName .file name →
      Tree.IsListed (.file (.plain .file name size)) :=
    fun name size hname => ⟨Entry.isPrinted_plain .file name size, hname⟩
  have directory : ∀ name size ts, EntryLine.IsName .directory name → Tree.AreListed ts →
      Tree.IsListed (.directory (.plain .directory name size) ts) :=
    fun name size ts hname hts => ⟨⟨Entry.isPrinted_plain .directory name size, hname⟩, hts⟩
  refine ⟨directory _ _ _ (by decide) ⟨file _ _ (by decide), ?_, ?_⟩, ?_, ?_⟩
  · simp [Tree.kind]
  · exact ⟨directory _ _ _ (by decide) trivial, by simp, trivial⟩
  · simp [Tree.kind]
  · exact ⟨file _ _ (by decide), by simp, trivial⟩

theorem load_print_nested :
    '\n' ∉ ['.'] ∧ Tree.AreListed nested ∧ Options.default.problems = [] ∧
      (load .default (.text (Layout.plain.print ['.'] nested))).result =
        .ok (.directory .root nested) :=
  have line : '\n' ∉ ['.'] := by decide
  ⟨line, areListed_nested, by decide, load_print .plain line areListed_nested (by decide)⟩

end DirectoryListing.Listing
