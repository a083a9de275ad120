import DirectoryListing.Proofs.Listing.Correspondence
import DirectoryListing.Proofs.Listing.Origins

/-!
# The order of blocks

Blocks may come in any order behind the first one, as long as each comes after the block that
announces it. Two readings of the same blocks pass through different trees, so they are not compared
step by step: the tree that a strict reading ends with is described without any order, and the
description is the same for both.

What is said of a place below the directory of a block is told by the blocks alone. The entries of
the block tell of the children. The entry of a child that is a directory announces a label, and a
block with this label tells of what lies further down. Where no label is announced twice, there is
one such block at most, whichever comes first.

## Main definitions

* `Listing.told cs c j r`: what the blocks `cs` tell of the address `j :: r` below the directory of
  the block `c`

## Main results

* `said_at?_of_housed`: the tree of a strict reading is what its blocks tell
* `told_perm`: the order of blocks with different labels does not matter for what they tell
* `eq_of_perm_paragraphs`: nor for the tree, where no label is announced twice
-/

namespace DirectoryListing.Listing

variable {strict : Bool} {lines lines' : List Text} {t t' : Tree} {c d : Content}
  {cs ds : List Content} {x : Tree.Address × Content}

/-! ## What blocks tell -/

/-- What some blocks tell of an address below the directory of one of them. The entries of this
block tell of the children; further down, those of a block with the label that an entry
announces. -/
def told (cs : List Content) (c : Content) : Nat → Tree.Address → Option (Kind × Entry)
  | j, [] => c.entries[j]?
  | j, i :: r => (c.labelAt? j).bind fun l => (cs.find? (·.label = l)).bind fun d => told cs d i r

/-- The first element with a property is the same in every order, if only one has it. -/
theorem find?_perm {α : Type} {p : α → Bool} {xs ys : List α} (hperm : xs.Perm ys)
    (hone : ∀ x ∈ ys, ∀ y ∈ ys, p x = true → p y = true → x = y) : xs.find? p = ys.find? p := by
  cases hy : ys.find? p with
  | none =>
    rw [List.find?_eq_none] at hy ⊢
    exact fun x hx => hy x (hperm.subset hx)
  | some y =>
    have hmem := hperm.symm.subset (List.mem_of_find?_eq_some hy)
    obtain ⟨x, hx⟩ := Option.isSome_iff_exists.mp
      (List.find?_isSome.mpr ⟨y, hmem, List.find?_some hy⟩)
    rw [hx, hone x (hperm.subset (List.mem_of_find?_eq_some hx)) y (List.mem_of_find?_eq_some hy)
      (List.find?_some hx) (List.find?_some hy)]

/-- **The order of blocks** with different labels does not matter for what they tell. -/
theorem told_perm (hperm : ds.Perm cs) (hlabels : ∀ c ∈ cs, ∀ d ∈ cs, c.label = d.label → c = d)
    (c : Content) (j : Nat) (r : Tree.Address) : told ds c j r = told cs c j r := by
  induction r generalizing c j with
  | nil => rfl
  | cons i r ih =>
    have find : ∀ l, ds.find? (·.label = l) = cs.find? (·.label = l) := by
      intro l
      refine find?_perm hperm fun c hc d hd hl hl' => hlabels c hc d hd ?_
      rw [of_decide_eq_true hl, of_decide_eq_true hl']
    rw [told, told]
    simp only [find, ih]

/-! ## The tree of a strict reading -/

section Strict

variable {j : Nat} (h : (parse true lines).result = .ok t)
  (hdistinct : ((contents lines).flatMap Content.announced).Nodup)

include h

/-- The blocks after the first one all go into the tree. -/
theorem map_snd_housed_add (hcs : contents lines = c :: cs) :
    ((Assembly.start.add c).housed cs).map (·.2) = cs := by
  have hall := (places_eq_of_parse h).2
  rw [housed_eq_cons hcs, hcs] at hall
  exact (List.cons.inj hall).2

/-- A block after the first one goes where its label comes from. -/
theorem exists_origin_of_mem (hcs : contents lines = c :: cs) (hd : d ∈ cs) :
    ∃ address, (address, d) ∈ housed lines ∧ Origin (housed lines) d.label address := by
  rw [← map_snd_housed_add h hcs] at hd
  obtain ⟨y, hy, rfl⟩ := List.mem_map.mp hd
  have hmem : y ∈ housed lines := by
    rw [housed_eq_cons hcs]
    exact List.mem_cons_of_mem _ hy
  -- the first block has gone to the root already
  have hne : y.1 ≠ [] := by
    have hnodup := (houses_of_parse h).nodup
    rw [housed_eq_cons hcs, List.map_cons, List.nodup_cons] at hnodup
    exact fun hnil => hnodup.1 (List.mem_map.mpr ⟨y, hy, hnil⟩)
  exact ⟨y.1, hmem, ((traced_of_contents hcs).housed y hmem).resolve_left fun hroot => hne hroot.2⟩

/-- Where a block goes to the directory of an entry, the entry announces the label of the block. -/
theorem exists_mem_of_mem_addresses (hcs : contents lines = c :: cs) (hx : x ∈ housed lines)
    (hmem : x.1 ++ [j] ∈ (housed lines).map (·.1)) :
    ∃ d ∈ cs, x.2.labelAt? j = some d.label := by
  obtain ⟨y, hy, hxy⟩ := List.mem_map.mp hmem
  have hlater : y ∈ (Assembly.start.add c).housed cs := by
    rw [housed_eq_cons hcs, List.mem_cons] at hy
    refine hy.resolve_left ?_
    rintro rfl
    simp at hxy
  have horigin := ((traced_of_contents hcs).housed y hy).resolve_left fun hroot => by
    simp [hroot.2] at hxy
  refine ⟨y.2, map_snd_housed_add h hcs ▸ List.mem_map_of_mem hlater, ?_⟩
  exact (hxy ▸ horigin).labelAt? (houses_of_parse h).nodup hx

include hdistinct

theorem nodup_announced_housed : ((housed lines).flatMap (·.2.announced)).Nodup := by
  rwa [← (places_eq_of_parse h).2, List.flatMap_map] at hdistinct

/-- The blocks after the first one have different labels. -/
theorem eq_of_label_eq (hcs : contents lines = c :: cs) :
    ∀ d ∈ cs, ∀ d' ∈ cs, d.label = d'.label → d = d' := by
  intro d hd d' hd' hl
  obtain ⟨address, hmem, horigin⟩ := exists_origin_of_mem h hcs hd
  obtain ⟨address', hmem', horigin'⟩ := exists_origin_of_mem h hcs hd'
  obtain rfl : address = address' :=
    horigin.eq_of_nodup (nodup_announced_housed h hdistinct) (hl ▸ horigin')
  exact congrArg (·.2) (List.inj_on_of_nodup_map (houses_of_parse h).nodup hmem hmem' rfl)

/-- The block with the label that an entry announces goes to the directory of the entry. -/
theorem mem_housed_of_labelAt? (hcs : contents lines = c :: cs) (hx : x ∈ housed lines)
    (hd : d ∈ cs) (hl : x.2.labelAt? j = some d.label) : (x.1 ++ [j], d) ∈ housed lines := by
  obtain ⟨address, hmem, horigin⟩ := exists_origin_of_mem h hcs hd
  have here : address = x.1 ++ [j] :=
    horigin.eq_of_nodup (nodup_announced_housed h hdistinct) ⟨x, hx, j, hl, rfl⟩
  exact here ▸ hmem

/-- **The tree of a strict reading** is what its blocks tell. -/
theorem said_at?_of_housed (hcs : contents lines = c :: cs) (hx : x ∈ housed lines) (j : Nat)
    (r : Tree.Address) : (t.at? (x.1 ++ j :: r)).map Tree.said = told cs x.2 j r := by
  have houses := houses_of_parse h
  -- down the address: one level further there is another block, or nothing
  induction r generalizing x j with
  | nil => exact houses.said_at?_concat hx j
  | cons i r ih =>
    have further : x.1 ++ j :: i :: r = x.1 ++ [j] ++ i :: r := by simp
    rw [told, further]
    cases hl : x.2.labelAt? j with
    | none =>
      rw [houses.at?_eq_none_of_labelAt? hx hl]
      rfl
    | some l =>
      rw [Option.bind_some]
      cases hf : cs.find? (·.label = l) with
      | some d =>
        obtain rfl : d.label = l := by simpa using List.find?_some hf
        have hd := List.mem_of_find?_eq_some hf
        exact ih (mem_housed_of_labelAt? h hdistinct hcs hx hd hl) i
      | none =>
        obtain ⟨e, ts, hu, -⟩ := houses.exists_directory_of_labelAt? hx hl
        have empty : x.1 ++ [j] ∉ (housed lines).map (·.1) := by
          intro hmem
          obtain ⟨d, hd, hl'⟩ := exists_mem_of_mem_addresses h hcs hx hmem
          have hne := List.find?_eq_none.mp hf d hd
          exact hne (decide_eq_true (Option.some.inj (hl'.symm.trans hl)))
        obtain rfl := houses.empty _ e ts hu empty
        rw [Tree.at?_append_of_empty hu]
        rfl

end Strict

/-! ## The order of blocks -/

theorem head?_contents (h : (parse strict lines).result = .ok t) :
    (contents lines).head? = (paragraphs lines).head?.bind Content.of? := by
  obtain ⟨hread, -, -⟩ := parse_result_eq_ok.mp h
  rw [contents]
  cases hp : paragraphs lines with
  | nil => rfl
  | cons p ps =>
    obtain ⟨c, hc⟩ := Option.isSome_iff_exists.mp (hread p (by simp [hp]))
    rw [List.filterMap_cons_some hc]
    exact hc.symm

/-- **The order of blocks does not matter** behind the first one. Where the entries of a listing's
blocks announce no label twice, every order of the blocks that begins with the same one and is
accepted in a strict reading makes the same tree. -/
theorem eq_of_perm_paragraphs (h : (parse true lines).result = .ok t)
    (h' : (parse true lines').result = .ok t')
    (hfirst : (paragraphs lines').head? = (paragraphs lines).head?)
    (hperm : (paragraphs lines').Perm (paragraphs lines))
    (hdistinct : ((contents lines).flatMap Content.announced).Nodup) : t' = t := by
  obtain ⟨c, cs, hcs⟩ := List.exists_cons_of_ne_nil (contents_ne_nil_of_parse h)
  obtain ⟨c', cs', hcs'⟩ := List.exists_cons_of_ne_nil (contents_ne_nil_of_parse h')
  have same : (contents lines').Perm (contents lines) := hperm.filterMap Content.of?
  obtain rfl : c' = c := by
    have hc : some c' = some c := by
      have heads := (head?_contents h').trans (hfirst ▸ (head?_contents h).symm)
      rwa [hcs, hcs'] at heads
    exact Option.some.inj hc
  have rest : cs'.Perm cs := by
    rw [hcs, hcs'] at same
    exact same.cons_inv
  have hdistinct' : ((contents lines').flatMap Content.announced).Nodup :=
    (same.flatMap_right Content.announced).nodup_iff.mpr hdistinct
  have root : (([], c') : Tree.Address × Content) ∈ housed lines := by
    rw [housed_eq_cons hcs]
    exact List.mem_cons_self
  have root' : (([], c') : Tree.Address × Content) ∈ housed lines' := by
    rw [housed_eq_cons hcs']
    exact List.mem_cons_self
  refine Tree.ext_said fun address => ?_
  rcases address with _ | ⟨j, r⟩
  · exact congrArg some ((houses_of_parse h').top.trans (houses_of_parse h).top.symm)
  · calc (t'.at? (j :: r)).map Tree.said
        = told cs' c' j r := said_at?_of_housed h' hdistinct' hcs' root' j r
      _ = told cs c' j r := told_perm rest (eq_of_label_eq h hdistinct hcs) c' j r
      _ = (t.at? (j :: r)).map Tree.said := (said_at?_of_housed h hdistinct hcs root j r).symm

/-- The lines of some blocks, with an empty line behind each. -/
def spaced (ps : List (List Text)) : List Text :=
  ps.flatMap (· ++ [[]])

/-- The blocks of two directories `a` and `b`, the first with a directory `c`, in the order of the
paths. -/
def byPath : List (List Text) :=
  [[".:".toList, "total 0".toList, "drwxr-xr-x 3 u g 0 Jan 1 00:00 a".toList,
      "drwxr-xr-x 2 u g 0 Jan 1 00:00 b".toList],
    ["./a:".toList, "total 0".toList, "drwxr-xr-x 2 u g 0 Jan 1 00:00 c".toList],
    ["./a/c:".toList, "total 0".toList, "-rw-r--r-- 1 u g 1 Jan 1 00:00 f".toList],
    ["./b:".toList, "total 0".toList, "-rw-r--r-- 1 u g 2 Jan 1 00:00 g".toList]]

/-- The same blocks, with that of `c` behind that of `b`. -/
def byDepth : List (List Text) :=
  byPath.take 2 ++ (byPath.drop 2).reverse

theorem eq_of_perm_paragraphs_byDepth :
    ∃ t, (parse true (spaced byPath)).result = .ok t ∧
      (parse true (spaced byDepth)).result = .ok t := by
  obtain ⟨t, ht⟩ : ∃ t, (parse true (spaced byPath)).result.toOption = some t :=
    Option.isSome_iff_exists.mp (by decide +kernel)
  obtain ⟨t', ht'⟩ : ∃ t, (parse true (spaced byDepth)).result.toOption = some t :=
    Option.isSome_iff_exists.mp (by decide +kernel)
  have same : t' = t := eq_of_perm_paragraphs (eq_ok_of_toOption ht) (eq_ok_of_toOption ht')
    (by decide +kernel) (by decide +kernel) (by decide +kernel)
  exact ⟨t, eq_ok_of_toOption ht, same ▸ eq_ok_of_toOption ht'⟩

end DirectoryListing.Listing
