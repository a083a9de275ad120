import DirectoryListing.Text.Basic

/-!
# Paths

A path is a text of names with slashes between them; one that starts with a slash is absolute.

## Main definitions

* `Path.join base p`: the path `p` seen from `base`
* `Path.segments p`: what stands between the slashes
* `Path.names p`: the names that lead from the root to where `p` does, by its text alone

## Main results

* `Path.ne_of_mem_names`: the names of a path are names indeed
-/

namespace DirectoryListing

namespace Path

/-- The path of the root. -/
def root : Text := ['/']

/-- The path `p` seen from `base`: an absolute one stands for itself, any other is put after the
base, with a slash between them unless the base is empty or brings it. -/
def join (base p : Text) : Text :=
  if p.head? = some '/' then p
  else if base = [] ∨ base.getLast? = some '/' then base ++ p
  else base ++ '/' :: p

/-- What stands between the slashes of a path. -/
def segments (p : Text) : List Text :=
  p.split '/'

/-- The path with slashes between the given segments. -/
def ofSegments (names : List Text) : Text :=
  Text.joined ['/'] names

/-- One segment further from where the names lead: nothing and a dot stay, two dots go back by one
name and stay at the root, and anything else is the next name. -/
def advance (names : List Text) (segment : Text) : List Text :=
  if segment = [] ∨ segment = ['.'] then names
  else if segment = ['.', '.'] then names.dropLast
  else names ++ [segment]

/-- The names that an absolute path leads through, from the root to its end. -/
def names (p : Text) : List Text :=
  (segments p).foldl advance []

theorem mem_advance {names : List Text} {segment n : Text} (h : n ∈ advance names segment) :
    n ∈ names ∨ n = segment ∧ n ≠ [] ∧ n ≠ ['.'] ∧ n ≠ ['.', '.'] := by
  unfold advance at h
  split at h
  · exact .inl h
  · split at h
    · exact .inl ((List.dropLast_subset _) h)
    · rcases List.mem_append.1 h with h | h
      · exact .inl h
      · obtain rfl := List.mem_singleton.1 h
        simp_all

/-- The names of a path are names indeed: none is empty, one dot or two dots. -/
theorem ne_of_mem_names {p n : Text} (h : n ∈ names p) : n ≠ [] ∧ n ≠ ['.'] ∧ n ≠ ['.', '.'] := by
  suffices ∀ (segments acc : List Text), n ∈ segments.foldl advance acc →
      n ∈ acc ∨ n ≠ [] ∧ n ≠ ['.'] ∧ n ≠ ['.', '.'] by
    simpa using this _ _ h
  intro segments
  induction segments with
  | nil => exact fun acc h => .inl h
  | cons segment segments ih =>
    intro acc h
    rcases ih _ h with h | h
    · rcases mem_advance h with h | h
      · exact .inl h
      · exact .inr h.2
    · exact .inr h

end Path

end DirectoryListing
