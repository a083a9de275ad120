import DirectoryListing.Proofs.Node.Resolution

/-!
# Ways down, one behind the other

A path downwards of two parts, with a slash between them, is followed part by part: what stops the
first part stops the whole path, and from a directory that the first part leads to the second one
is followed. From a file there is no way on at all. The second part has a segment in any case, if
only an empty one, so that even a slash at the end of a path asks for a directory before it.

Only the path that is told with a file in the way differs, since an error tells the whole one.

## Main definitions

* `Path.lastSegment p`: the last segment of a path
* `Node.StepError.onPath whole e`: what stops a part of a path, as it is told for the whole one

## Main results

* `Node.walk_append`: segments are followed one part after the other
* `Node.descend_append_slash`: a path of two parts is followed part by part
-/

namespace DirectoryListing

namespace Path

/-- A path has at least one segment, which may be empty. -/
theorem segments_ne_nil (p : Text) : segments p ≠ [] :=
  Text.split_ne_nil '/' p

/-- The last segment of a path. -/
def lastSegment (p : Text) : Text :=
  (segments p).getLast (segments_ne_nil p)

theorem getLastD_segments (p default : Text) : (segments p).getLastD default = lastSegment p := by
  rw [List.getLastD_eq_getLast?, List.getLast?_eq_some_getLast (segments_ne_nil p),
    Option.getD_some, lastSegment]

end Path

namespace Node

variable {n : Node}

/-- What stops a part of a path, as it is told for the whole one. -/
def StepError.onPath (whole : Text) : StepError → StepError
  | unknownEntry name => unknownEntry name
  | notDirectory name _ => notDirectory name whole

/-- **Segments are followed one part after the other**: the second part from the node that the first
one leads to, with the last segment of the first one before it. -/
theorem walk_append (p last : Text) (n : Node) (xs ys : List Text) :
    walk p last n (xs ++ ys) =
      match walk p last n xs with
      | .error e => .error e
      | .ok m => walk p (xs.getLastD last) m ys := by
  induction xs generalizing n last with
  | nil => rfl
  | cons x xs ih =>
    rw [List.cons_append, walk, walk]
    split
    · cases n.child x with
      | error e => rfl
      | ok c => rw [List.getLastD_cons, ← ih]
    · rfl

/-- The path that is told has no part in how far its segments lead. -/
theorem walk_onPath (p whole last : Text) (n : Node) (xs : List Text) :
    walk whole last n xs = (walk p last n xs).mapError (StepError.onPath whole) := by
  induction xs generalizing n last with
  | nil => rfl
  | cons x xs ih =>
    rw [walk, walk]
    split
    · cases hc : n.child x with
      | error e =>
        -- a name that no child has is told without the path
        obtain rfl := child_eq_error hc
        rfl
      | ok c => exact ih x c
    · rfl

/-- From a directory, it is no matter what has led there. -/
theorem walk_of_isDirectory (h : n.isDirectory = true) (p last last' : Text) (xs : List Text) :
    walk p last n xs = walk p last' n xs := by
  cases xs with
  | nil => rfl
  | cons x xs => rw [walk, walk, if_pos h, if_pos h]

/-- From a file, no segment leads further. -/
theorem walk_of_not_isDirectory (h : ¬ n.isDirectory = true) (p last : Text) {xs : List Text}
    (hne : xs ≠ []) : walk p last n xs = .error (.notDirectory last p) := by
  obtain ⟨x, xs, rfl⟩ := List.exists_cons_of_ne_nil hne
  rw [walk, if_neg h]

/-- **A path of two parts is followed part by part.** What stops the first part stops the whole
path, which leads on as the second part does from a directory that the first one leads to. From a
file it does not lead on, and the last segment of the first part is told. -/
theorem descend_append_slash (n : Node) (p q : Text) :
    let whole := p ++ '/' :: q
    n.descend whole =
      match n.descend p with
      | .error e => .error (e.onPath whole)
      | .ok m =>
        if m.isDirectory = true then (m.descend q).mapError (StepError.onPath whole)
        else .error (.notDirectory (Path.lastSegment p) whole) := by
  intro whole
  have parts : n.descend whole =
      match (n.descend p).mapError (StepError.onPath whole) with
      | .error e => .error e
      | .ok m => walk whole (Path.lastSegment p) m (Path.segments q) := by
    rw [descend, Path.segments_append_slash, walk_append, walk_onPath p whole,
      Path.getLastD_segments, descend]
  rw [parts]
  cases n.descend p with
  | error e => rfl
  | ok m =>
    change walk whole (Path.lastSegment p) m (Path.segments q) =
      if m.isDirectory = true then _ else _
    split
    · next hm => rw [walk_of_isDirectory hm whole _ [], walk_onPath q whole, descend]
    · next hm => exact walk_of_not_isDirectory hm whole _ (Path.segments_ne_nil q)

/-- A slash at the end asks for a directory before it. -/
example : (ofTree shelf).descend "a/f/".toList = .error (.notDirectory ['f'] "a/f/".toList) := rfl

end Node

end DirectoryListing
