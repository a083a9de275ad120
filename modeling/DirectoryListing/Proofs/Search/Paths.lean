import DirectoryListing.Proofs.Node.Addresses
import DirectoryListing.Proofs.Search.Runs

/-!
# Searches told by paths

A search that starts with nothing pending comes upon nodes at and below its start only. Each of them
has a path from the start, so no find is without one, and an expression made of expressions only
lets the search run to its end.

## Main results

* `Search.paths_eq`: what such a search comes to
* `Search.length_found_paths`: how many paths such a search finds
* `Search.mem_found_paths_iff`: which paths it finds
-/

namespace DirectoryListing.Search

variable {e : Expr} {start n : Node}

theorem pending_schedule_empty (order : Strategy) (start : Node) :
    ((Frontier.empty order).schedule [start]).pending = [start] := by
  cases order <;> rfl

/-- From nothing pending, a traversal comes upon each node at or below its start once. -/
theorem perm_order_schedule_empty (order : Strategy) (start : Node) :
    ((Frontier.empty order).schedule [start]).order.Perm start.preorder := by
  have perm := ((Frontier.empty order).schedule [start]).order_perm
  rwa [pending_schedule_empty, List.flatMap_singleton] at perm

/-- From nothing pending, a traversal comes upon the nodes at and below its start. -/
theorem mem_order_schedule_empty {order : Strategy} :
    n ∈ ((Frontier.empty order).schedule [start]).order ↔ n ∈ start.preorder :=
  (perm_order_schedule_empty order start).mem_iff

/-- From nothing pending, no node is come upon twice. -/
theorem nodup_order_schedule_empty (order : Strategy) (start : Node) :
    ((Frontier.empty order).schedule [start]).order.Nodup :=
  (perm_order_schedule_empty order start).nodup_iff.mpr start.nodup_preorder

theorem asPath_eq (h : n ∈ start.preorder) : asPath start n = .ok (Node.pathFrom start n) := by
  rw [asPath, (Node.relativePath_of_mem_preorder h).1]

/-- **A search told by paths runs to its end**: it finds the paths of the nodes that the expression
holds of, in the order of the traversal. -/
theorem paths_eq (he : e.isPure = true) (order : Strategy) (start : Node) :
    (new e (.empty order)).paths start =
      completed ⟨e, (Frontier.empty order).schedule [start], 0, 0⟩ (Node.pathFrom start) :=
  collect_eq Cursor.noConfusion (fun n _ => Expr.answers_of_isPure he n) fun _ hn _ =>
    asPath_eq (mem_order_schedule_empty.mp hn)

theorem failure_paths (he : e.isPure = true) (order : Strategy) (start : Node) :
    ((new e (.empty order)).paths start).failure = none := by
  rw [paths_eq he]
  rfl

/-- **A search counts** the nodes at and below its start that its expression holds of. -/
theorem length_found_paths (he : e.isPure = true) (order : Strategy) (start : Node) :
    ((new e (.empty order)).paths start).found.length = start.preorder.countP e.accepts := by
  rw [paths_eq he, completed, List.length_map, ← List.countP_eq_length_filter]
  exact (perm_order_schedule_empty order start).countP_eq _

/-- **The paths found** are those of the nodes at and below the start that the expression holds
of. -/
theorem mem_found_paths_iff (he : e.isPure = true) {order : Strategy} {p : Text} :
    p ∈ ((new e (.empty order)).paths start).found ↔
      ∃ n ∈ start.preorder, e.accepts n = true ∧ Node.pathFrom start n = p := by
  rw [paths_eq he, completed]
  simp only [List.mem_map, List.mem_filter, mem_order_schedule_empty, and_assoc]

/-- Each path found is that of a node at or below the start. -/
theorem mem_found_paths (he : e.isPure = true) {order : Strategy} {p : Text}
    (h : p ∈ ((new e (.empty order)).paths start).found) :
    ∃ n ∈ start.preorder, p = Node.pathFrom start n := by
  obtain ⟨n, hn, -, path⟩ := (mem_found_paths_iff he).mp h
  exact ⟨n, hn, path.symm⟩

end DirectoryListing.Search
