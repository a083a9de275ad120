import DirectoryListing.Proofs.Listing.Labels
import DirectoryListing.Proofs.Path.Segments

/-!
# Paths made of names

Names may be joined to a path one after the other or all at once, with slashes between them. An
absolute path that is made in this way of names leads through these names again. Other paths lead on
from where one is, and joined to each other they lead on one after the other.

## Main definitions

* `Path.IsName n`: a segment that stands for itself
* `Path.along start p`: the names that a path leads through, seen from where some names lead

## Main results

* `Path.foldl_join`: joining names one after the other
* `Path.names_root_append`: the names of an absolute path made of names
* `Path.along_join`: a joined path leads on from where its first part leads
-/

namespace DirectoryListing.Path

variable {base n p : Text} {ns : List Text}

/-- A segment that stands for itself: it is neither one dot nor two dots. -/
structure IsName (n : Text) : Prop extends IsSegment n where
  dot : n ≠ ['.']
  dots : n ≠ ['.', '.']

theorem isName_of_mem_names (h : n ∈ Path.names p) : IsName n :=
  have ⟨hne, hdot, hdots⟩ := ne_of_mem_names h
  ⟨⟨hne, fun hs => (mem_of_mem_names h hs).2 rfl⟩, hdot, hdots⟩

/-! ## Joining names -/

/-- Names without slashes at their ends make a relative path. -/
theorem head?_ofSegments (h : ∀ n ∈ ns, IsTrimmed n) : (ofSegments ns).head? ≠ some '/' := by
  rcases ns with _ | ⟨n, ns⟩
  · simp [ofSegments, Text.joined]
  have hn := h n List.mem_cons_self
  obtain ⟨c, t, rfl⟩ := List.exists_cons_of_ne_nil hn.ne_nil
  have hc : some c ≠ some '/' := hn.head
  rcases ns with _ | ⟨m, ns⟩
  · simpa [ofSegments_singleton] using hc
  · simpa [ofSegments_cons_cons] using hc

/-- A path with names joined to it. -/
theorem join_ofSegments (h : ∀ n ∈ ns, IsTrimmed n) (base : Text) :
    join base (ofSegments ns) = stem base ++ ofSegments ns := by
  unfold join stem
  rw [if_neg (head?_ofSegments h)]
  split <;> simp

/-- **Joining names one after the other** is joining them at once. -/
theorem foldl_join (hne : ns ≠ []) (h : ∀ n ∈ ns, IsTrimmed n) (base : Text) :
    ns.foldl join base = join base (ofSegments ns) := by
  rw [join_ofSegments h]
  induction ns generalizing base with
  | nil => exact absurd rfl hne
  | cons n ns ih =>
    obtain ⟨hn, hns⟩ := List.forall_mem_cons.mp h
    rcases ns with _ | ⟨m, ns⟩
    · rw [List.foldl_cons, List.foldl_nil, hn.join, ofSegments_singleton]
    · rw [List.foldl_cons, ih (List.cons_ne_nil m ns) hns, hn.stem_join, hn.join,
        ofSegments_cons_cons, List.append_assoc, List.append_assoc]
      rfl

/-! ## Leading through names -/

theorem foldl_advance (h : ∀ n ∈ ns, IsName n) (before : List Text) :
    ns.foldl advance before = before ++ ns := by
  induction ns generalizing before with
  | nil => rw [List.foldl_nil, List.append_nil]
  | cons n ns ih =>
    obtain ⟨hn, hns⟩ := List.forall_mem_cons.mp h
    have step : advance before n = before ++ [n] := by
      rw [advance, if_neg (not_or.mpr ⟨hn.ne_nil, hn.dot⟩), if_neg hn.dots]
    rw [List.foldl_cons, step, ih hns, List.append_assoc, List.singleton_append]

/-- **An absolute path made of names** leads through these names. -/
theorem names_root_append (h : ∀ n ∈ ns, IsName n) :
    Path.names (root ++ ofSegments ns) = ns := by
  rcases ns with _ | ⟨n, ns⟩
  · rfl
  have hsegments : segments (ofSegments (n :: ns)) = n :: ns :=
    segments_ofSegments (List.cons_ne_nil n ns) fun m hm => (h m hm).slash
  calc Path.names (root ++ ofSegments (n :: ns))
      = ([] :: segments (ofSegments (n :: ns))).foldl advance [] := by
        rw [Path.names, segments, root, List.singleton_append, Text.split_cons_self]
        rfl
    _ = n :: ns := by rw [hsegments, List.foldl_cons, foldl_advance h]; rfl

/-! ## Leading on from names -/

/-- The names that a path leads through, seen from where the names `start` lead; an absolute path
starts at the root. -/
def along (start : List Text) (p : Text) : List Text :=
  (segments p).foldl advance (if p.head? = some '/' then [] else start)

theorem along_nil_left (p : Text) : along [] p = Path.names p := by
  rw [along, ite_self, Path.names]

theorem along_of_absolute (h : p.head? = some '/') (start : List Text) :
    along start p = Path.names p := by
  rw [along, if_pos h, Path.names]

theorem along_of_relative (h : p.head? ≠ some '/') (start : List Text) :
    along start p = (segments p).foldl advance start := by
  rw [along, if_neg h]

theorem advance_nil (names : List Text) : advance names [] = names :=
  if_pos (.inl rfl)

theorem segments_append_slash (a b : Text) :
    segments (a ++ '/' :: b) = segments a ++ segments b :=
  Text.split_append_sep '/' a b

/-- What stands behind a slash leads on from where the path up to the slash leads. -/
theorem along_append_slash (start : List Text) (a b : Text) :
    along start (a ++ '/' :: b) = (segments b).foldl advance (along start (a ++ ['/'])) := by
  have head : (a ++ '/' :: b).head? = (a ++ ['/']).head? := by cases a <;> rfl
  have empty : segments [] = [[]] := rfl
  rw [along, along, head, segments_append_slash, segments_append_slash, List.foldl_append,
    List.foldl_append, empty, List.foldl_cons, List.foldl_nil, advance_nil]

/-- A slash at the end of a path makes no difference. -/
theorem along_append_singleton (start : List Text) {a : Text} (ha : a ≠ []) :
    along start (a ++ ['/']) = along start a := by
  obtain ⟨c, a, rfl⟩ := List.exists_cons_of_ne_nil ha
  have head : (c :: a ++ ['/']).head? = (c :: a).head? := rfl
  have empty : segments [] = [[]] := rfl
  rw [along, along, head, segments_append_slash, List.foldl_append, empty, List.foldl_cons,
    List.foldl_nil, advance_nil]

/-- **A joined path leads on** from where its first part leads. -/
theorem along_join (start : List Text) (a b : Text) :
    along start (join a b) = along (along start a) b := by
  unfold join
  split
  · next hb => rw [along_of_absolute hb, along_of_absolute hb]
  next hb =>
  rw [along_of_relative hb]
  split
  · next ha =>
    rcases ha with rfl | ha
    · rw [List.nil_append, along_of_relative hb]
      rfl
    · obtain ⟨a, rfl⟩ := List.getLast?_eq_some_iff.mp ha
      rw [List.append_assoc, List.singleton_append, along_append_slash]
  · next ha => rw [along_append_slash, along_append_singleton start (not_or.mp ha).1]

theorem names_join (base p : Text) : Path.names (join base p) = along (Path.names base) p := by
  rw [← along_nil_left, along_join, along_nil_left]

end DirectoryListing.Path
