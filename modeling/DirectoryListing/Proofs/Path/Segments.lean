import DirectoryListing.Path

/-!
# Segments and names of a path

What stands between the slashes of a path holds no slash, and segments that hold none are found
again in the path that they make. The names that a path leads through are some of its segments; the
last segment is the last of them, unless it is one of the few that stand for no name.

## Main results

* `Text.split_joined`: pieces without the separator are found again
* `Text.split_flatMap`: pieces that a separator ends are found again
* `Path.segments_ofSegments`: segments are those of the path that they make
* `Path.ofSegments_append`: a path of two parts has a slash between them
* `Path.names_of_segments_concat`: a last segment that is a name is the last name
-/

namespace DirectoryListing

namespace Text

variable {sep c : Char} {t piece : Text} {ts : List Text}

/-! ## Pieces -/

theorem split_cons_of_ne (h : c ≠ sep) (t : Text) : ∃ piece pieces,
    t.split sep = piece :: pieces ∧ Text.split sep (c :: t) = (c :: piece) :: pieces := by
  obtain ⟨piece, pieces, hs⟩ := List.exists_cons_of_ne_nil (split_ne_nil sep t)
  refine ⟨piece, pieces, hs, ?_⟩
  rw [Text.split, if_neg h, hs]

theorem split_cons_self (sep : Char) (t : Text) :
    Text.split sep (sep :: t) = [] :: t.split sep := by
  rw [Text.split, if_pos rfl]

/-- A piece holds characters of the text only, and not the separator. -/
theorem mem_of_mem_split (hp : piece ∈ t.split sep) (hc : c ∈ piece) : c ∈ t ∧ c ≠ sep := by
  induction t generalizing piece with
  | nil =>
    rw [List.mem_singleton.mp hp] at hc
    cases hc
  | cons d t ih =>
    by_cases hd : d = sep
    · subst hd
      rw [split_cons_self] at hp
      rcases List.mem_cons.mp hp with rfl | hp
      · cases hc
      · exact (ih hp hc).imp_left (List.mem_cons_of_mem _)
    · obtain ⟨first, rest, hs, hcons⟩ := split_cons_of_ne hd t
      rw [hcons] at hp
      rw [hs] at ih
      rcases List.mem_cons.mp hp with rfl | hp
      · rcases List.mem_cons.mp hc with rfl | hc
        · exact ⟨List.mem_cons_self, hd⟩
        · exact (ih List.mem_cons_self hc).imp_left (List.mem_cons_of_mem _)
      · exact (ih (List.mem_cons_of_mem _ hp) hc).imp_left (List.mem_cons_of_mem _)

/-- A text without the separator is one piece. -/
theorem split_of_not_mem (h : sep ∉ t) : t.split sep = [t] := by
  induction t with
  | nil => rfl
  | cons c t ih =>
    obtain ⟨hc, ht⟩ := List.ne_and_not_mem_of_not_mem_cons h
    rw [Text.split, if_neg (Ne.symm hc), ih ht]

/-- A piece ends at the next separator. -/
theorem split_append_cons (h : sep ∉ t) (u : Text) :
    Text.split sep (t ++ sep :: u) = t :: u.split sep := by
  induction t with
  | nil => exact split_cons_self sep u
  | cons c t ih =>
    obtain ⟨hc, ht⟩ := List.ne_and_not_mem_of_not_mem_cons h
    rw [List.cons_append, Text.split, if_neg (Ne.symm hc), ih ht]

/-- The pieces of two texts with a separator between them are those of either. -/
theorem split_append_sep (sep : Char) (t u : Text) :
    Text.split sep (t ++ sep :: u) = t.split sep ++ u.split sep := by
  induction t with
  | nil => exact split_cons_self sep u
  | cons c t ih =>
    by_cases hc : c = sep
    · subst hc
      rw [List.cons_append, split_cons_self, split_cons_self, ih, List.cons_append]
    · obtain ⟨piece, pieces, hs, hcons⟩ := split_cons_of_ne hc t
      rw [List.cons_append, Text.split, if_neg hc, ih, hcons, hs]
      rfl

theorem joined_singleton (sep : Char) (t : Text) : joined [sep] [t] = t := by
  simp [joined]

theorem joined_cons_cons (sep : Char) (t u : Text) (ts : List Text) :
    joined [sep] (t :: u :: ts) = t ++ sep :: joined [sep] (u :: ts) := by
  simp [joined, List.intercalate, List.intersperse]

/-- **Pieces without the separator** are found again in the text that they make. -/
theorem split_joined (hne : ts ≠ []) (h : ∀ t ∈ ts, sep ∉ t) :
    (joined [sep] ts).split sep = ts := by
  induction ts with
  | nil => exact absurd rfl hne
  | cons t ts ih =>
    obtain ⟨ht, hts⟩ := List.forall_mem_cons.mp h
    rcases ts with _ | ⟨u, ts⟩
    · rw [joined_singleton, split_of_not_mem ht]
    · rw [joined_cons_cons, split_append_cons ht, ih (List.cons_ne_nil u ts) hts]

/-- Pieces that each end at a separator are found again, with nothing after the last one. -/
theorem split_flatMap (h : ∀ t ∈ ts, sep ∉ t) :
    Text.split sep (ts.flatMap (· ++ [sep])) = ts ++ [[]] := by
  induction ts with
  | nil => rfl
  | cons t ts ih =>
    obtain ⟨ht, hts⟩ := List.forall_mem_cons.mp h
    rw [List.flatMap_cons, List.append_assoc, List.singleton_append, split_append_cons ht, ih hts,
      List.cons_append]

/-- A character at the end of a text, which is no separator, stands at the end of its last piece. -/
theorem split_append_singleton (h : c ≠ sep) (t : Text) : ∃ pieces last,
    t.split sep = pieces ++ [last] ∧ Text.split sep (t ++ [c]) = pieces ++ [last ++ [c]] := by
  induction t with
  | nil => exact ⟨[], [], rfl, by rw [List.nil_append, Text.split, if_neg h]; rfl⟩
  | cons d t ih =>
    obtain ⟨pieces, last, hs, hs'⟩ := ih
    by_cases hd : d = sep
    · subst hd
      refine ⟨[] :: pieces, last, ?_, ?_⟩
      · rw [split_cons_self, hs, List.cons_append]
      · rw [List.cons_append, split_cons_self, hs', List.cons_append]
    · rw [List.cons_append, Text.split, Text.split, if_neg hd, if_neg hd, hs, hs']
      rcases pieces with _ | ⟨piece, pieces⟩
      · exact ⟨[], d :: last, rfl, rfl⟩
      · exact ⟨(d :: piece) :: pieces, last, rfl, rfl⟩

end Text

namespace Path

variable {c : Char} {p base x : Text} {names : List Text}

/-! ## Joined paths -/

theorem mem_of_mem_join (h : c ∈ join base p) : c = '/' ∨ c ∈ base ∨ c ∈ p := by
  unfold join at h
  split at h
  · exact .inr (.inr h)
  · split at h <;> simp only [List.mem_append, List.mem_cons] at h
    · exact .inr h
    · rcases h with h | h | h
      · exact .inr (.inl h)
      · exact .inl h
      · exact .inr (.inr h)

/-- What is joined to an absolute path is absolute. -/
theorem head?_join (h : base.head? = some '/') : (join base p).head? = some '/' := by
  unfold join
  split
  · assumption
  · split <;> rw [List.head?_append, h, Option.some_or]

/-- A path ends as what was joined last. -/
theorem exists_join_append (base p : Text) : ∃ u, join base p = u ++ p := by
  unfold join
  split
  · exact ⟨[], rfl⟩
  · split
    · exact ⟨base, rfl⟩
    · exact ⟨base ++ ['/'], by simp⟩

/-! ## Names -/

/-- The segments of the path that some segments make are these segments. -/
theorem segments_ofSegments (hne : names ≠ []) (h : ∀ x ∈ names, '/' ∉ x) :
    segments (ofSegments names) = names :=
  Text.split_joined hne h

theorem mem_segments_of_mem_names (h : x ∈ Path.names p) : x ∈ segments p := by
  suffices ∀ (ts acc : List Text), x ∈ ts.foldl advance acc → x ∈ acc ∨ x ∈ ts by
    simpa using this _ _ h
  intro ts
  induction ts with
  | nil => exact fun acc h => .inl h
  | cons t ts ih =>
    intro acc h
    rcases ih _ h with h | h
    · rcases mem_advance h with h | ⟨rfl, -⟩
      · exact .inl h
      · exact .inr List.mem_cons_self
    · exact .inr (List.mem_cons_of_mem _ h)

/-- The names of a path hold characters of the path, and no slash. -/
theorem mem_of_mem_names (h : x ∈ Path.names p) (hc : c ∈ x) : c ∈ p ∧ c ≠ '/' :=
  Text.mem_of_mem_split (mem_segments_of_mem_names h) hc

/-- A last segment that is a name is the last name. -/
theorem names_of_segments_concat {ts : List Text} (h : segments p = ts ++ [x]) (hx : x ≠ [])
    (hdot : x ≠ ['.']) (hdots : x ≠ ['.', '.']) : ∃ before, Path.names p = before ++ [x] := by
  refine ⟨ts.foldl advance [], ?_⟩
  rw [Path.names, h, List.foldl_append, List.foldl_cons, List.foldl_nil, advance,
    if_neg (not_or.mpr ⟨hx, hdot⟩), if_neg hdots]

theorem ofSegments_singleton (x : Text) : ofSegments [x] = x :=
  Text.joined_singleton '/' x

theorem ofSegments_cons_cons (x y : Text) (names : List Text) :
    ofSegments (x :: y :: names) = x ++ '/' :: ofSegments (y :: names) :=
  Text.joined_cons_cons '/' x y names

/-- A path of two parts has a slash between them. -/
theorem ofSegments_append {xs ys : List Text} (hxs : xs ≠ []) (hys : ys ≠ []) :
    ofSegments (xs ++ ys) = ofSegments xs ++ '/' :: ofSegments ys := by
  induction xs with
  | nil => exact absurd rfl hxs
  | cons x xs ih =>
    rcases xs with _ | ⟨x', xs⟩
    · obtain ⟨y, ys, rfl⟩ := List.exists_cons_of_ne_nil hys
      rw [List.singleton_append, ofSegments_cons_cons, ofSegments_singleton]
    · rw [List.cons_append, List.cons_append, ofSegments_cons_cons, ← List.cons_append,
        ih (List.cons_ne_nil x' xs), ofSegments_cons_cons, List.append_assoc, List.cons_append]

theorem mem_ofSegments (h : c ∈ ofSegments names) : c = '/' ∨ ∃ x ∈ names, c ∈ x := by
  induction names with
  | nil => cases h
  | cons x names ih =>
    rcases names with _ | ⟨y, names⟩
    · rw [ofSegments_singleton] at h
      exact .inr ⟨x, List.mem_cons_self, h⟩
    · rw [ofSegments_cons_cons, List.mem_append, List.mem_cons] at h
      rcases h with h | rfl | h
      · exact .inr ⟨x, List.mem_cons_self, h⟩
      · exact .inl rfl
      · rcases ih h with hc | ⟨z, hz, hc⟩
        · exact .inl hc
        · exact .inr ⟨z, List.mem_cons_of_mem _ hz, hc⟩

theorem mem_ofSegments_of_mem (hx : x ∈ names) (hc : c ∈ x) : c ∈ ofSegments names := by
  induction names with
  | nil => cases hx
  | cons y names ih =>
    rcases names with _ | ⟨z, names⟩
    · rwa [ofSegments_singleton, ← List.mem_singleton.mp hx]
    · rw [ofSegments_cons_cons, List.mem_append, List.mem_cons]
      rcases List.mem_cons.mp hx with rfl | hx
      · exact .inl hc
      · exact .inr (.inr (ih hx))

end Path

end DirectoryListing
