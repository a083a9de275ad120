import DirectoryListing.Listing.Assembly
import DirectoryListing.Proofs.Listing.Address

/-!
# Announcements

The announced blocks are known by their labels only, so what matters of them is where each label
leads. Those that lead into the tree lead to directories that are still empty, and no two of them to
the same one. A block keeps it so: it fills one of these directories, and announces the new ones.

## Main definitions

* `Listing.announced`: the labels that the entries of a block announce
* `Listing.Announcements.place`: where a label leads when reading is not strict
* `Listing.Announcements.Fits`: the announcements lead to the empty directories of a tree

## Main results

* `Announcements.lookup_announceAll`: where a label leads after the entries of a block
* `Announcements.Fits.graft`: a block in the tree keeps the announcements fitting
-/

namespace DirectoryListing.Listing

/-- The tops of the trees that some entries make. -/
def leaves (entries : List (Kind × Entry)) : List Tree :=
  entries.map fun (kind, entry) => Tree.leaf kind entry

/-- The labels that the entries of a block with the given label announce. -/
def announced (label : Text) (entries : List (Kind × Entry)) : List Text :=
  entries.filterMap fun (kind, entry) => match kind with
    | .file => none
    | .directory => some (Path.join label entry.name)

namespace Announcements

variable {w : Announcements} {t : Tree} {label l : Text} {p : Place} {a b : Tree.Address}
  {entries : List (Kind × Entry)}

/-! ## Where a label leads -/

/-- Where the entries of a block with this label go when reading is not strict: nowhere, if it was
never announced. -/
def place (w : Announcements) (label : Text) : Place :=
  (w.lookup label).getD .nowhere

theorem place_eq_inside : w.place l = .inside a ↔ w.lookup l = some (.inside a) := by
  unfold place
  rcases w.lookup l with _ | p <;> simp

theorem lookup_drop (w : Announcements) (label l : Text) :
    (w.drop label).lookup l = if l = label then none else w.lookup l := by
  unfold drop
  induction w with
  | nil => simp
  | cons x w ih =>
    obtain ⟨m, p⟩ := x
    rw [List.filter_cons]
    -- an announcement for the label is taken out, and any other stays where it is
    by_cases hm : m = label
    · rw [if_neg (by simpa using hm), ih]
      by_cases hl : l = label
      · rw [if_pos hl, if_pos hl]
      · have hb : (l == m) = false := beq_eq_false_iff_ne.mpr (hm ▸ hl)
        rw [if_neg hl, if_neg hl, List.lookup_cons, hb]
    · rw [if_pos (by simpa using hm), List.lookup_cons, ih, List.lookup_cons]
      by_cases hl : l = m
      · subst hl
        simp [hm]
      · have hb : (l == m) = false := beq_eq_false_iff_ne.mpr hl
        simp [hb]

theorem lookup_announce (w : Announcements) (label l : Text) (p : Place) :
    (w.announce label p).lookup l = if l = label then some p else w.lookup l := by
  rw [announce, List.lookup_cons]
  by_cases hl : l = label
  · simp [hl]
  · have hb : (l == label) = false := beq_eq_false_iff_ne.mpr hl
    simp [hl, hb, lookup_drop]

/-- The entries of a block leave alone where other labels lead. -/
theorem lookup_announceAll_of_not_mem (h : l ∉ announced label entries) (i : Nat) :
    (announceAll label p i entries w).lookup l = w.lookup l := by
  induction entries generalizing i w with
  | nil => rfl
  | cons x entries ih =>
    rcases x with ⟨_ | _, e⟩
    · exact ih h (i + 1)
    · simp only [announced, List.filterMap_cons, List.mem_cons, not_or] at h
      rw [announceAll, ih h.2, lookup_announce, if_neg h.1]

/-- An announced label leads to one of the directories that announce it, which does not depend on
anything else. -/
theorem lookup_announceAll (h : l ∈ announced label entries) :
    ∃ j e, entries[j]? = some (.directory, e) ∧ Path.join label e.name = l ∧
      ∀ w p i, (announceAll label p i entries w).lookup l = some (p.entry (i + j)) := by
  induction entries with
  | nil => cases h
  | cons x entries ih =>
    have behind : l ∈ announced label entries →
        ∃ j e, (x :: entries)[j]? = some (.directory, e) ∧ Path.join label e.name = l ∧
          ∀ w p i, (announceAll label p i (x :: entries) w).lookup l = some (p.entry (i + j)) := by
      intro h
      obtain ⟨j, e, he, hl, hw⟩ := ih h
      refine ⟨j + 1, e, he, hl, fun w p i => ?_⟩
      rcases x with ⟨_ | _, e'⟩ <;> rw [announceAll, hw] <;> congr 2 <;> omega
    rcases x with ⟨_ | _, e⟩
    · exact behind h
    -- of several directories with the same name the last one counts
    · by_cases hm : l ∈ announced label entries
      · exact behind hm
      · simp only [announced, List.filterMap_cons, List.mem_cons] at h
        have hl : l = Path.join label e.name := h.resolve_right hm
        refine ⟨0, e, rfl, hl.symm, fun w p i => ?_⟩
        rw [announceAll, lookup_announceAll_of_not_mem hm, lookup_announce, if_pos hl, Nat.add_zero]

/-! ## Announcements that fit a tree -/

/-- The labels that lead into a tree lead to directories without children, each to its own. -/
structure Fits (w : Announcements) (t : Tree) : Prop where
  empty : ∀ l a, w.lookup l = some (.inside a) → ∃ e, t.at? a = some (.directory e [])
  unique : ∀ l l' a, w.lookup l = some (.inside a) → w.lookup l' = some (.inside a) → l = l'

theorem Fits.drop (h : w.Fits t) (label : Text) : (w.drop label).Fits t where
  empty l a hl := by
    rw [lookup_drop] at hl
    split at hl
    · cases hl
    · exact h.empty l a hl
  unique l l' a hl hl' := by
    rw [lookup_drop] at hl hl'
    split at hl
    · cases hl
    · split at hl'
      · cases hl'
      · exact h.unique l l' a hl hl'

/-- A block that goes nowhere keeps the announcements fitting. -/
theorem Fits.nowhere (h : w.Fits t) (label : Text) (entries : List (Kind × Entry)) :
    (announceAll label .nowhere 0 entries w).Fits t := by
  have old : ∀ {l a}, (announceAll label .nowhere 0 entries w).lookup l = some (.inside a) →
      w.lookup l = some (.inside a) := by
    intro l a hl
    by_cases hm : l ∈ announced label entries
    · obtain ⟨j, e, -, -, hw⟩ := lookup_announceAll hm
      rw [hw] at hl
      cases hl
    · rwa [lookup_announceAll_of_not_mem hm] at hl
  exact ⟨fun l a hl => h.empty l a (old hl), fun l l' a hl hl' => h.unique l l' a (old hl) (old hl')⟩

/-- A directory that is empty, and that no label leads to, has no place above or below one that a
label leads to. -/
theorem Fits.not_prefix (h : w.Fits t) {e : Entry} (ha : t.at? a = some (.directory e []))
    (hfree : ∀ l, w.lookup l ≠ some (.inside a)) (hl : w.lookup l = some (.inside b)) :
    ¬ a <+: b ∧ ¬ b <+: a := by
  -- both are empty, so neither has the other inside
  obtain ⟨e', hb⟩ := h.empty l b hl
  constructor
  · rintro ⟨c, rfl⟩
    rcases c with _ | ⟨i, c⟩
    · exact hfree l (by simpa using hl)
    · rw [Tree.at?_append_of_empty ha] at hb
      cases hb
  · rintro ⟨c, rfl⟩
    rcases c with _ | ⟨i, c⟩
    · exact hfree l (by simpa using hl)
    · rw [Tree.at?_append_of_empty hb] at ha
      cases ha

/-- **A block in the tree keeps the announcements fitting.** It fills an empty directory that no
other label leads to. -/
theorem Fits.graft (h : w.Fits t) {e : Entry} (ha : t.at? a = some (.directory e []))
    (hfree : ∀ l, w.lookup l ≠ some (.inside a)) (label : Text) (entries : List (Kind × Entry)) :
    (announceAll label (.inside a) 0 entries w).Fits (t.graft a (leaves entries)) := by
  -- a label leads to where it led, which is elsewhere, or to one of the new directories
  have old : ∀ {l b}, l ∉ announced label entries →
      (announceAll label (.inside a) 0 entries w).lookup l = some (.inside b) →
      w.lookup l = some (.inside b) := by
    intro l b hm hl
    rwa [lookup_announceAll_of_not_mem hm] at hl
  have new : ∀ {l b}, l ∈ announced label entries →
      (announceAll label (.inside a) 0 entries w).lookup l = some (.inside b) →
      ∃ j e, entries[j]? = some (.directory, e) ∧ Path.join label e.name = l ∧ b = a ++ [j] := by
    intro l b hm hl
    obtain ⟨j, e, he, hj, hw⟩ := lookup_announceAll hm
    rw [hw] at hl
    cases hl
    exact ⟨j, e, he, hj, by simp⟩
  -- where there is nothing yet, no label leads
  have apart : ∀ {l j}, w.lookup l ≠ some (.inside (a ++ [j])) := by
    intro l j hl
    obtain ⟨e', he⟩ := h.empty l _ hl
    rw [Tree.at?_append_of_empty ha] at he
    cases he
  constructor
  · intro l b hl
    by_cases hm : l ∈ announced label entries
    -- a new directory has just been put in, without children
    · obtain ⟨j, e', he, -, rfl⟩ := new hm hl
      refine ⟨e', ?_⟩
      rw [Tree.at?_append, Tree.at?_graft_self ha]
      simp [Tree.at?_cons, Tree.children, leaves, he, Tree.leaf]
    · have hw := old hm hl
      obtain ⟨hab, hba⟩ := h.not_prefix ha hfree hw
      rw [Tree.at?_graft_of_not_prefix hab hba]
      exact h.empty l b hw
  · intro l l' b hl hl'
    by_cases hm : l ∈ announced label entries
    · obtain ⟨j, e₁, he, rfl, rfl⟩ := new hm hl
      by_cases hm' : l' ∈ announced label entries
      · obtain ⟨j', e₂, he', rfl, hj⟩ := new hm' hl'
        obtain rfl : j = j' := by simpa using hj
        rw [he] at he'
        cases he'
        rfl
      · exact absurd (old hm' hl') apart
    · by_cases hm' : l' ∈ announced label entries
      · obtain ⟨j', e₂, -, -, rfl⟩ := new hm' hl'
        exact absurd (old hm hl) apart
      · exact h.unique l l' b (old hm hl) (old hm' hl')

end Announcements

end DirectoryListing.Listing
