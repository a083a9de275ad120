import DirectoryListing.Proofs.Listing.Places
import Mathlib.Data.List.Nodup
import Mathlib.Data.List.Pairwise

/-!
# Where the labels of blocks come from

A block that goes into the tree goes to a directory, and its label was announced by the entry for
this directory: the label is the name there joined to the label of the block that has the entry, and
the place is that of the entry. The first block alone has a label that nothing announces.

Where no label is announced twice, the label of a block tells all by itself where the block goes.

## Main definitions

* `Listing.Content.labelAt?`: the label that the entry at a position announces
* `Listing.Origin xs l address`: an entry of some blocks in the tree announces the label `l`, and
  the address is that of the entry
* `Listing.Assembly.Traced`: labels that lead into the tree have their origin there

## Main results

* `Assembly.Traced.addAll`: blocks keep it so
* `traced_of_contents`: the blocks of a listing go where their labels come from
* `Origin.eq_of_nodup`: labels that differ lead to one place each
-/

namespace DirectoryListing.Listing

variable {strict : Bool} {lines : List Text} {t : Tree} {a : Assembly} {c : Content}
  {cs : List Content} {R l : Text} {address b : Tree.Address}
  {xs ys : List (Tree.Address × Content)} {x : Tree.Address × Content} {j k : Nat}

/-! ## Labels of entries -/

namespace Content

/-- The label that the entry at a position announces, if it is a directory. -/
def labelAt? (c : Content) (j : Nat) : Option Text :=
  match c.entries[j]? with
  | some (.directory, e) => some (Path.join c.label e.name)
  | _ => none

theorem labelAt?_eq_some : c.labelAt? j = some l ↔
    ∃ e, c.entries[j]? = some (.directory, e) ∧ Path.join c.label e.name = l := by
  unfold labelAt?
  rcases c.entries[j]? with _ | ⟨_ | _, e⟩ <;> simp

theorem mem_announced_of_labelAt? (h : c.labelAt? j = some l) : l ∈ c.announced := by
  obtain ⟨e, he, rfl⟩ := labelAt?_eq_some.mp h
  exact List.mem_filterMap.mpr ⟨_, List.mem_of_getElem? he, rfl⟩

/-- Where no label is announced twice, it is announced in one position. -/
theorem labelAt?_injective (hnodup : c.announced.Nodup) (hj : c.labelAt? j = some l)
    (hk : c.labelAt? k = some l) : j = k := by
  obtain ⟨e, he, hname⟩ := labelAt?_eq_some.mp hj
  obtain ⟨e', he', hname'⟩ := labelAt?_eq_some.mp hk
  obtain ⟨hlj, hej⟩ := List.getElem?_eq_some_iff.mp he
  obtain ⟨hlk, hek⟩ := List.getElem?_eq_some_iff.mp he'
  have differ := List.pairwise_iff_getElem.mp (List.pairwise_filterMap.mp hnodup)
  rcases Nat.lt_trichotomy j k with hlt | heq | hlt
  · exact absurd rfl (differ j k hlj hlk hlt l (by simp [hej, hname]) l (by simp [hek, hname']))
  · exact heq
  · exact absurd rfl (differ k j hlk hlj hlt l (by simp [hek, hname']) l (by simp [hej, hname]))

end Content

/-- An entry of some blocks in the tree announces the label, and the address is that of the
entry. -/
def Origin (xs : List (Tree.Address × Content)) (l : Text) (address : Tree.Address) : Prop :=
  ∃ x ∈ xs, ∃ j, x.2.labelAt? j = some l ∧ address = x.1 ++ [j]

theorem Origin.mono (h : Origin xs l address) (hsub : ∀ x ∈ xs, x ∈ ys) : Origin ys l address := by
  obtain ⟨x, hx, rest⟩ := h
  exact ⟨x, hsub x hx, rest⟩

/-- **Labels that differ** lead to one place each. -/
theorem Origin.eq_of_nodup (hnodup : (xs.flatMap (·.2.announced)).Nodup) (h : Origin xs l address)
    (h' : Origin xs l b) : address = b := by
  obtain ⟨x, hx, j, hj, rfl⟩ := h
  obtain ⟨y, hy, k, hk, rfl⟩ := h'
  obtain ⟨each, apart⟩ := List.nodup_flatMap.mp hnodup
  have symm : Std.Symm (Function.onFun List.Disjoint fun x : Tree.Address × Content =>
      x.2.announced) := ⟨fun _ _ => List.disjoint_symm⟩
  have same : x = y := by
    refine Classical.byContradiction fun hne => ?_
    exact apart.forall hx hy hne (Content.mem_announced_of_labelAt? hj)
      (Content.mem_announced_of_labelAt? hk)
  subst same
  rw [Content.labelAt?_injective (each x hx) hj hk]

/-- The place of an entry is the origin of no label but its own. -/
theorem Origin.labelAt? (hnodup : (xs.map (·.1)).Nodup) (hx : x ∈ xs)
    (h : Origin xs l (x.1 ++ [j])) : x.2.labelAt? j = some l := by
  obtain ⟨y, hy, k, hk, heq⟩ := h
  obtain ⟨hxy, hjk⟩ := List.append_inj' heq rfl
  obtain rfl : x = y := List.inj_on_of_nodup_map hnodup hx hy hxy
  obtain rfl : j = k := by simpa using hjk
  exact hk

namespace Assembly

/-! ## Entries in the tree -/

/-- An entry that announces a label is a directory. -/
theorem Houses.exists_directory_of_labelAt? (h : a.Houses xs t) (hx : x ∈ xs)
    (hl : x.2.labelAt? j = some l) : ∃ e ts, t.at? (x.1 ++ [j]) = some (.directory e ts) ∧
      x.2.entries[j]? = some (.directory, e) ∧ Path.join x.2.label e.name = l := by
  obtain ⟨e, he, hname⟩ := Content.labelAt?_eq_some.mp hl
  obtain ⟨u, hu, hsaid⟩ := Option.map_eq_some_iff.mp ((h.said_at?_concat hx j).trans he)
  cases u with
  | file e' => cases hsaid
  | directory e' ts =>
    cases hsaid
    exact ⟨e', ts, hu, he, hname⟩

/-- Below an entry that announces no label there is nothing. -/
theorem Houses.at?_eq_none_of_labelAt? (h : a.Houses xs t) (hx : x ∈ xs)
    (hl : x.2.labelAt? j = none) (i : Nat) (r : Tree.Address) :
    t.at? (x.1 ++ [j] ++ i :: r) = none := by
  have child := h.said_at?_concat hx j
  cases hu : t.at? (x.1 ++ [j]) with
  | none => rw [Tree.at?_append, hu, Option.bind_none]
  | some u =>
    cases u with
    | file e => exact Tree.at?_append_of_file hu i r
    | directory e ts =>
      rw [hu] at child
      have announces := Content.labelAt?_eq_some.mpr ⟨e, child.symm, rfl⟩
      rw [hl] at announces
      cases announces

/-! ## Labels that lead into the tree -/

/-- Each label that leads into the tree, and that of each block there, has its origin in the blocks
of the tree; only the label `R` leads to the root. -/
structure Traced (a : Assembly) (R : Text) (xs : List (Tree.Address × Content)) : Prop where
  announced : ∀ l address, a.announced.lookup l = some (.inside address) →
    (l = R ∧ address = []) ∨ Origin xs l address
  housed : ∀ x ∈ xs, (x.2.label = R ∧ x.1 = []) ∨ Origin xs x.2.label x.1

theorem traced_rooted (R : Text) : (rooted R).Traced R [] where
  announced l address hl := by
    obtain ⟨rfl, haddress⟩ := lookup_rooted.mp hl
    exact .inl ⟨rfl, Place.inside.inj haddress⟩
  housed := nofun

/-- A block that goes into the tree announces the places of its own entries. -/
theorem Traced.add_inside (h : a.Traced R xs) (ht : a.tree = some t)
    (hl : a.announced.lookup c.label = some (.inside address)) :
    (a.add c).Traced R (xs ++ [(address, c)]) := by
  have mono : ∀ {l b}, Origin xs l b → Origin (xs ++ [(address, c)]) l b :=
    fun h => h.mono fun x => List.mem_append_left _
  constructor
  · intro l b hlb
    by_cases hm : l ∈ c.announced
    · obtain ⟨j, e, he, hname, hj⟩ := lookup_add_of_mem hm
      rw [hj, place?_of_tree ht, hl] at hlb
      exact .inr ⟨(address, c), by simp, j, Content.labelAt?_eq_some.mpr ⟨e, he, hname⟩,
        (Place.inside.inj (Option.some.inj hlb)).symm⟩
    · rw [lookup_add_of_not_mem hm] at hlb
      split at hlb
      · cases hlb
      · exact (h.announced l b hlb).imp_right mono
  · refine List.forall_mem_append.mpr ⟨fun x hx => (h.housed x hx).imp_right mono, ?_⟩
    simpa using (h.announced _ _ hl).imp_right mono

/-- A block that goes nowhere announces no place in the tree. -/
theorem Traced.add_nowhere (h : a.Traced R xs) (ht : a.tree = some t)
    (hp : a.announced.place c.label = .nowhere) : (a.add c).Traced R xs where
  announced l address hl := by
    by_cases hm : l ∈ c.announced
    · obtain ⟨j, e, -, -, hj⟩ := lookup_add_of_mem hm
      rw [Announcements.place] at hp
      rw [hj, place?_of_tree ht, hp] at hl
      cases hl
    · rw [lookup_add_of_not_mem hm] at hl
      split at hl
      · cases hl
      · exact h.announced l address hl
  housed := h.housed

/-- **One more block.** -/
theorem Traced.add (h : a.Traced R xs) (ht : a.tree = some t) (c : Content) :
    (a.add c).Traced R (xs ++ a.housed [c]) := by
  rcases hp : a.announced.place c.label with address | _
  · have hl := Announcements.place_eq_inside.mp hp
    rw [housed_of_inside ht hl]
    exact h.add_inside ht hl
  · rw [housed_of_nowhere ht hp, List.append_nil]
    exact h.add_nowhere ht hp

theorem Traced.addAll (h : a.Traced R xs) (ht : a.tree.isSome = true) (cs : List Content) :
    (a.addAll cs).Traced R (xs ++ a.housed cs) := by
  induction cs generalizing a xs with
  | nil => simpa [Assembly.housed, places, Assembly.addAll] using h
  | cons c cs ih =>
    obtain ⟨t, ht⟩ := Option.isSome_iff_exists.mp ht
    rw [housed_cons, addAll_cons, ← List.append_assoc]
    exact ih (h.add ht c) (isSome_tree_add a c)

theorem traced_start (c : Content) (cs : List Content) :
    (start.addAll (c :: cs)).Traced c.label (start.housed (c :: cs)) := by
  have read := (traced_rooted c.label).addAll rfl (c :: cs)
  rwa [List.nil_append, Assembly.housed, ← places_start, addAll_cons, ← add_start,
    ← addAll_cons] at read

end Assembly

/-! ## Whole listings -/

/-- **The blocks of a listing** go where their labels come from. -/
theorem traced_of_contents (hcs : contents lines = c :: cs) :
    (Assembly.start.addAll (contents lines)).Traced c.label (housed lines) := by
  rw [housed, hcs]
  exact Assembly.traced_start c cs

/-- The first block goes to the root, and the others go after it. -/
theorem housed_eq_cons (hcs : contents lines = c :: cs) :
    housed lines = ([], c) :: (Assembly.start.add c).housed cs := by
  rw [housed, hcs, Assembly.housed_cons]
  rfl

end DirectoryListing.Listing
