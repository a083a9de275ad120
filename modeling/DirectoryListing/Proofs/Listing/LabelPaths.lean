import DirectoryListing.Proofs.Listing.Correspondence
import DirectoryListing.Proofs.Listing.Origins
import DirectoryListing.Proofs.Path.Names
import Mathlib.Data.List.Induction

/-!
# Labels as paths

Labels are made by joining names to labels, and places by going from directories to their entries.
The two go together: the label of a block is that of the first block, with the names on the way to
the directory of the block joined to it. Where no name holds a slash, this is the path of the
directory below the root, joined to the label of the first block.

It is so for a label in any state of the reading, since the label has its origin in an entry: the
block that has the entry lies one step higher, and the entry adds its name to both.

## Main definitions

* `Path.Leads base ns l`: the names `ns` lead from the path `base` to the path `l`
* `Listing.Assembly.LabelsLead`: labels are made of the names on the way to their places

## Main results

* `Assembly.Traced.labelsLead`: labels that have their origin in the tree are made of the names on
  the way to it
* `label_eq_join_relativePath`: the label of a block tells where its directory lies
-/

namespace DirectoryListing

/-! ## From path to path -/

namespace Path

variable {base l n : Text} {ns : List Text}

/-- Names without a slash, joined to a path one after the other, make another path. -/
structure Leads (base : Text) (ns : List Text) (l : Text) : Prop where
  eq : l = ns.foldl join base
  segments : ∀ n ∈ ns, IsSegment n

theorem leads_nil (base : Text) : Leads base [] base :=
  ⟨rfl, nofun⟩

theorem Leads.concat (h : Leads base ns l) (hn : IsSegment n) :
    Leads base (ns ++ [n]) (join l n) where
  eq := by rw [List.foldl_append, ← h.eq, List.foldl_cons, List.foldl_nil]
  segments := List.forall_mem_append.mpr ⟨h.segments, by simpa using hn⟩

theorem Leads.eq_join (h : Leads base ns l) (hne : ns ≠ []) : l = join base (ofSegments ns) :=
  h.eq.trans (foldl_join hne (fun n hn => (h.segments n hn).isTrimmed) base)

end Path

namespace Listing

variable {strict : Bool} {lines : List Text} {t : Tree} {a : Assembly} {b : Block} {c : Content}
  {cs : List Content} {R : Text} {address : Tree.Address} {xs : List (Tree.Address × Content)}
  {i : Nat}

/-- The names of the directories among the entries hold no slash. -/
def Content.IsPlain (c : Content) : Prop :=
  ∀ e, (Kind.directory, e) ∈ c.entries → Path.IsSegment e.name

namespace Assembly

/-! ## Labels and ways -/

/-- The labels that lead into the tree, and those of the blocks there, are made of the names on the
way to their places. -/
structure LabelsLead (a : Assembly) (R : Text) (xs : List (Tree.Address × Content)) (t : Tree) :
    Prop where
  announced : ∀ l address, a.announced.lookup l = some (.inside address) →
    Path.Leads R (t.namesTo address) l
  housed : ∀ x ∈ xs, Path.Leads R (t.namesTo x.1) x.2.label

/-- **Labels that have their origin in the tree** are made of the names on the way to it. -/
theorem Traced.labelsLead (h : a.Traced R xs) (hh : a.Houses xs t)
    (hplain : ∀ x ∈ xs, x.2.IsPlain) : a.LabelsLead R xs t := by
  -- from the root down, as the block that has an entry lies above it
  have leads : ∀ address l, (l = R ∧ address = []) ∨ Origin xs l address →
      Path.Leads R (t.namesTo address) l := by
    intro address
    induction address using List.reverseRecOn with
    | nil =>
      rintro l (⟨rfl, -⟩ | ⟨x, -, j, -, heq⟩)
      · exact Path.leads_nil l
      · simp at heq
    | append_singleton address j ih =>
      rintro l (⟨-, heq⟩ | ⟨x, hx, k, hk, heq⟩)
      · simp at heq
      · obtain ⟨rfl, heq⟩ := List.append_inj' heq rfl
        obtain rfl : j = k := by simpa using heq
        obtain ⟨e, ts, hat, he, rfl⟩ := hh.exists_directory_of_labelAt? hx hk
        have way : t.namesTo (x.1 ++ [j]) = t.namesTo x.1 ++ [e.name] := Tree.namesTo_concat hat
        rw [way]
        exact (ih _ (h.housed x hx)).concat (hplain x hx e (List.mem_of_getElem? he))
  exact ⟨fun l address hl => leads address l (h.announced l address hl),
    fun x hx => leads x.1 _ (h.housed x hx)⟩

end Assembly

/-! ## Whole listings -/

/-- What a block says goes to its place. -/
theorem exists_housed_of_getElem? (h : (parse strict lines).result = .ok t)
    (hb : (blocks lines)[i]? = some b) (hp : (places lines)[i]? = some (.inside address)) :
    ∃ c, b.content? = some c ∧ (address, c) ∈ housed lines := by
  have said := congrArg (·[i]?) (map_content?_blocks h)
  simp only [List.getElem?_map, hb, Option.map_some] at said
  obtain ⟨c, hc, heq⟩ := Option.map_eq_some_iff.mp said.symm
  refine ⟨c, heq.symm, List.mem_filterMap.mpr ⟨(.inside address, c), ?_, rfl⟩⟩
  exact List.mem_of_getElem? (List.getElem?_zip_eq_some.mpr ⟨hp, hc⟩)

/-- Only the first block goes to the root. -/
theorem ne_nil_of_getElem?_places (h : (parse strict lines).result = .ok t)
    (hp : (places lines)[i + 1]? = some (.inside address)) : address ≠ [] := by
  rintro rfl
  obtain ⟨c, cs, hcs⟩ := List.exists_cons_of_ne_nil (contents_ne_nil_of_parse h)
  have first : ((Assembly.start.place? c.label).getD .nowhere).address? = some [] := rfl
  have nodup := (houses_of_parse h).nodup
  rw [housed, Assembly.map_fst_housed, hcs, Assembly.places, List.filterMap_cons_some first,
    List.nodup_cons] at nodup
  rw [places, hcs, Assembly.places, List.getElem?_cons_succ] at hp
  exact nodup.1 (List.mem_filterMap.mpr ⟨_, List.mem_of_getElem? hp, rfl⟩)

/-- Blocks say what is read from their lines. -/
theorem isPlain_of_mem_contents (hnames : ∀ b ∈ blocks lines, ∀ l ∈ b.entries, ∀ e,
    EntryLine.read? l.text = some (.directory, e) → '/' ∉ e.name) :
    ∀ c ∈ contents lines, c.IsPlain := by
  intro c hc e he
  rw [contents_eq] at hc
  obtain ⟨b, hb, hbc⟩ := List.mem_filterMap.mp hc
  obtain ⟨l, hl, hread⟩ := (Block.mem_entries_iff hbc).mp he
  exact ⟨EntryLine.name_ne_nil_of_read? hread, hnames b hb l hl e hread⟩

/-- The labels of the blocks in the tree of a listing are made of the names on the way to them. -/
theorem labelsLead_of_parse (h : (parse strict lines).result = .ok t)
    (hcs : contents lines = c :: cs) (hplain : ∀ c ∈ contents lines, c.IsPlain) :
    (Assembly.start.addAll (contents lines)).LabelsLead c.label (housed lines) t :=
  (traced_of_contents hcs).labelsLead (houses_of_parse h) fun x hx =>
    hplain x.2 (Assembly.mem_of_mem_housed hx)

/-- **The label of a block tells where its directory lies**: it is the path of the directory below
the root, joined to the label of the first block. -/
theorem label_eq_join_relativePath (h : (parse strict lines).result = .ok t)
    (hnames : ∀ b ∈ blocks lines, ∀ l ∈ b.entries, ∀ e,
      EntryLine.read? l.text = some (.directory, e) → '/' ∉ e.name) :
    ∃ first R, (blocks lines).head? = some first ∧ first.label? = some R ∧
      ∀ i b address, 0 < i → (blocks lines)[i]? = some b →
        (places lines)[i]? = some (.inside address) →
        ∃ L d p, b.label? = some L ∧ (Node.ofTree t).follow address = some d ∧ b.Lists d ∧
          d.relativePath (.ofTree t) = .ok p ∧ L = Path.join R p := by
  have plain := isPlain_of_mem_contents hnames
  obtain ⟨c, cs, hcs⟩ := List.exists_cons_of_ne_nil (contents_ne_nil_of_parse h)
  obtain ⟨first, bs, hbs, hfirst, -⟩ := List.map_eq_cons_iff.mp (hcs ▸ map_content?_blocks h)
  refine ⟨first, c.label, by rw [hbs, List.head?_cons], (Block.content?_eq_some.mp hfirst).1, ?_⟩
  intro i b address hi hb hp
  obtain ⟨c', hbc, mem⟩ := exists_housed_of_getElem? h hb hp
  have below : address ≠ [] := by
    obtain ⟨j, rfl⟩ := Nat.exists_eq_add_of_lt hi
    exact ne_nil_of_getElem?_places h (by simpa [Nat.add_comm] using hp)
  obtain ⟨d, hd, hlists⟩ := exists_lists_of_housed h mem
  have way : t.namesTo address ≠ [] := by
    obtain ⟨e, ts, hat, -⟩ := (houses_of_parse h).full _ mem
    exact mt (Tree.namesTo_eq_nil_iff hat).mp below
  have lead := (labelsLead_of_parse h hcs plain).housed _ mem
  exact ⟨c'.label, d, _, (Block.content?_eq_some.mp hbc).1, hd, hlists b hbc,
    Node.relativePath_ofTree hd below, lead.eq_join way⟩

/-- The block of the second of two namesakes has the path of both for its label. -/
theorem label_eq_join_namesakes : (parse true namesakes).result = .ok namesakesTree ∧
    ∃ first R, (blocks namesakes).head? = some first ∧ first.label? = some R ∧
      ∃ b L d p, (blocks namesakes)[1]? = some b ∧ b.label? = some L ∧
        (Node.ofTree namesakesTree).follow [1] = some d ∧ b.Lists d ∧
        d.relativePath (.ofTree namesakesTree) = .ok p ∧ L = Path.join R p := by
  have plain : ∀ b ∈ blocks namesakes, ∀ l ∈ b.entries, ∀ x ∈ EntryLine.read? l.text,
      '/' ∉ x.2.name := by decide +kernel
  have place : (places namesakes)[1]? = some (.inside [1]) := by decide +kernel
  obtain ⟨b, hb⟩ : ∃ b, (blocks namesakes)[1]? = some b :=
    Option.isSome_iff_exists.mp (by decide +kernel)
  obtain ⟨first, R, hfirst, hR, later⟩ := label_eq_join_relativePath parse_namesakes
    fun b hb l hl e he => plain b hb l hl (.directory, e) he
  obtain ⟨L, d, p, hL⟩ := later 1 b [1] (by decide) hb place
  exact ⟨parse_namesakes, first, R, hfirst, hR, b, L, d, p, hb, hL⟩

end Listing

end DirectoryListing
