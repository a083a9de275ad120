import DirectoryListing.Fault
import DirectoryListing.Value

/-!
# Frontiers

A frontier holds what a traversal has still to visit. It takes whole batches, and the strategy says
where a batch goes: before all that is pending, or behind it.

## Main definitions

* `Strategy`, `Strategy.named?`: the two orders and the names they go by
* `Strategy.Choice`: an order as a caller asks for it
* `Frontier`, `Frontier.schedule`, `Frontier.next?`: the pending items, put in and taken out
-/

namespace DirectoryListing

/-! ## Strategies -/

/-- The order of a traversal. -/
inductive Strategy where
  /-- A directory, then all below it, then what comes after it. -/
  | depthFirst
  /-- Level by level. -/
  | breadthFirst
  deriving DecidableEq, Repr

namespace Strategy

/-- The names that a strategy can be asked for by. -/
def table : List (Text × Strategy) := [
  ("dfs".toList, depthFirst), ("depth_first".toList, depthFirst),
  ("bfs".toList, breadthFirst), ("breadth_first".toList, breadthFirst)]

/-- The strategy of a name. Capitals and small letters are not told apart. -/
def named? (name : Text) : Option Strategy :=
  table.lookup name.lowercase

/-- The strategy of a code, which is the short name of it. -/
def ofCode? (code : Text) : Option Strategy :=
  if code = "dfs".toList then some depthFirst
  else if code = "bfs".toList then some breadthFirst
  else none

/-- The title of a strategy's frontiers. -/
def title : Strategy → Text
  | depthFirst => "DepthFirstScheduler".toList
  | breadthFirst => "BreadthFirstScheduler".toList

/-- A strategy as a caller asks for it: itself, or by any value that may be its name. -/
inductive Choice where
  | exactly (s : Strategy)
  | called (v : Value)

/-- The strategy asked for, or the value that names none. -/
def Choice.strategy : Choice → Except Value Strategy
  | .exactly s => .ok s
  | .called v =>
    match named? v.display with
    | some s => .ok s
    | none => .error v

/-- The fault of a value that names no strategy. -/
def unknown (v : Value) : Fault :=
  .badValue ("Unknown traversal strategy: ".toList ++ v.display)

/-- The fault of a value that names no strategy, with the names that do. -/
def unknownAmong (v : Value) : Fault :=
  .badValue ("Unknown traversal strategy: ".toList ++ v.display ++ ". Choose from: ".toList ++
    Text.joined ", ".toList (table.map (·.1)))

/-- The fault of a code that no strategy has. -/
def unknownCode (v : Value) : Fault :=
  .badValue (v.quoted ++ " is not a valid TraversalStrategy".toList)

end Strategy

/-! ## Frontiers -/

variable {α : Type}

/-- Pending items, the next one first. -/
structure Frontier (α : Type) where
  strategy : Strategy
  pending : List α
  deriving DecidableEq, Repr

namespace Frontier

/-- A frontier with nothing pending. -/
def empty (s : Strategy) : Frontier α := ⟨s, []⟩

/-- The number of pending items. -/
def size (f : Frontier α) : Nat := f.pending.length

/-- The frontier with a batch put in, in its own order: before all that is pending when the
traversal goes into depth, and behind it when it goes by levels. -/
def schedule (f : Frontier α) (batch : List α) : Frontier α :=
  match f.strategy with
  | .depthFirst => { f with pending := batch ++ f.pending }
  | .breadthFirst => { f with pending := f.pending ++ batch }

/-- The next item and the frontier without it, unless nothing is pending. -/
def next? (f : Frontier α) : Option (α × Frontier α) :=
  match f.pending with
  | [] => none
  | a :: rest => some (a, { f with pending := rest })

theorem strategy_schedule (f : Frontier α) (batch : List α) :
    (f.schedule batch).strategy = f.strategy := by
  unfold schedule
  split <;> rfl

/-- Scheduling keeps all that is pending and adds the batch. -/
theorem perm_pending_schedule (f : Frontier α) (batch : List α) :
    (f.schedule batch).pending.Perm (f.pending ++ batch) := by
  unfold schedule
  split
  · exact List.perm_append_comm
  · exact List.Perm.refl _

end Frontier

end DirectoryListing
