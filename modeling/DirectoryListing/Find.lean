import DirectoryListing.Query
import DirectoryListing.Search

/-!
# Finding nodes by a query

Nodes are asked for by the tokens of a query, from a start on and in the order of a strategy, which
may be given by one of its names. The finds are told by their paths, or counted, or printed.

## Main definitions

* `Find.paths start tokens choice`: the search that is asked for, told by paths
* `Find.count start tokens choice`: the number of its finds
* `Search.emit s start`: the finds of a search, printed and counted
-/

namespace DirectoryListing

namespace Find

/-- Why nothing can be told of the finds. -/
inductive Error where
  /-- The value that should be a strategy or the name of one is neither. -/
  | strategy (v : Value)
  /-- The tokens spell no expression. -/
  | query (e : Query.Error)
  /-- The search ends early. -/
  | search (e : Search.Error)

/-- The fault of an error. -/
def Error.fault : Error → Fault
  | strategy v => Strategy.unknown v
  | query e => e.fault
  | search e => e.fault

/-- What a search that was asked for has come to, and the records of asking for it and of running
it. -/
structure Finding where
  outcome : Search.Outcome Text
  log : List Log.Record

/-- The search that a query asks for, from a start on, told by paths. The strategy is looked at
before the query, and both before anything is visited. -/
def paths (start : Node) (tokens : List Text) (choice : Strategy.Choice) : Except Error Finding :=
  match choice.strategy with
  | .error v => .error (.strategy v)
  | .ok order =>
    match Query.parse tokens with
    | .error e => .error (.query e)
    | .ok e =>
      let outcome := (Search.new e (.empty order)).paths start
      .ok ⟨outcome, Query.record tokens e :: outcome.log⟩

/-- The number of finds that a query asks for, from a start on. They are counted one by one, as the
search comes upon them; a search that ends early has no number. -/
def count (start : Node) (tokens : List Text) (choice : Strategy.Choice) : Except Error Nat :=
  match paths start tokens choice with
  | .error e => .error e
  | .ok finding =>
    match finding.outcome.failure with
    | some e => .error (.search e)
    | none => .ok (finding.outcome.found.foldl (fun number _ => number + 1) 0)

end Find

namespace Search

/-- What comes of printing the finds of a search: the text that is written, the number of paths in
it unless the search has ended early, and what the search has come to. -/
structure Emission where
  text : Text
  count : Except Error Nat
  outcome : Outcome Text

/-- The text and the number of the paths written so far, with one more path written. -/
def writePath (written : Text × Nat) (p : Text) : Text × Nat :=
  (written.1 ++ (p ++ ['\n']), written.2 + 1)

/-- Prints the paths of the finds from a start on, a line each, and counts them. What was written
before a search ends early stays written. -/
def emit (s : Search) (start : Node) : Emission :=
  let outcome := s.paths start
  let written := outcome.found.foldl writePath ([], 0)
  match outcome.failure with
  | some e => ⟨written.1, .error e, outcome⟩
  | none => ⟨written.1, .ok written.2, outcome⟩

/-- The paths of the finds are written as they are printed in a shell, and all are counted. -/
theorem foldl_writePath (ps : List Text) (written : Text × Nat) :
    ps.foldl writePath written = (written.1 ++ printed ps, written.2 + ps.length) := by
  induction ps generalizing written with
  | nil => simp [printed]
  | cons p ps ih => simp [ih, writePath, printed, Nat.add_assoc, Nat.add_comm 1]

end Search

end DirectoryListing
