import DirectoryListing.Find
import DirectoryListing.Proofs.Query.Errors
import DirectoryListing.Proofs.Search.Paths

/-!
# What a query finds under either strategy

The strategy settles in which order nodes are visited, and nothing else. Under any strategy the
nodes visited are those at and below the start, each once, so the paths that are found differ in
their order only, and their number is that of the nodes that the query holds of.

## Main results

* `Find.paths_eq`: what a query finds, when the strategy is one and the tokens spell an expression
* `Find.count_eq`: the number of finds is that of the nodes that the query holds of
* `Find.paths_perm_and_count`: two strategies find the same paths, in their own orders
-/

namespace DirectoryListing

namespace Search

variable {e : Expr}

/-- **Two strategies find the same paths**, each as often as the other. -/
theorem found_paths_perm (he : e.isPure = true) (order order' : Strategy) (start : Node) :
    ((new e (.empty order)).paths start).found.Perm
      ((new e (.empty order')).paths start).found := by
  have visits : ((Frontier.empty order).schedule [start]).order.Perm
      ((Frontier.empty order').schedule [start]).order :=
    (perm_order_schedule_empty order start).trans (perm_order_schedule_empty order' start).symm
  rw [paths_eq he, paths_eq he]
  exact (visits.filter _).map _

end Search

namespace Find

variable {e : Expr} {tokens : List Text} {choice choice' : Strategy.Choice} {order order' : Strategy}

theorem paths_eq (hc : choice.strategy = .ok order) (hq : Query.parse tokens = .ok e)
    (start : Node) :
    let outcome := (Search.new e (.empty order)).paths start
    paths start tokens choice = .ok ⟨outcome, Query.record tokens e :: outcome.log⟩ := by
  rw [paths, hc, hq]

/-- **The number of finds** is that of the nodes at and below the start that the query holds of. -/
theorem count_eq (hc : choice.strategy = .ok order) (hq : Query.parse tokens = .ok e)
    (start : Node) : count start tokens choice = .ok (start.preorder.countP e.accepts) := by
  have pure := Query.isPure_of_parse hq
  rw [count, paths_eq hc hq]
  simp only [Search.failure_paths pure, List.foldl_add_const, Search.length_found_paths pure,
    Nat.zero_add, Nat.one_mul]

/-- **Two strategies find the same things.** The paths found by a query under the one are those
found under the other, each as often, in another order. Their number is under both that of the nodes
at and below the start that the query holds of. -/
theorem paths_perm_and_count (hq : Query.parse tokens = .ok e)
    (hc : choice.strategy = .ok order) (hc' : choice'.strategy = .ok order') (start : Node) :
    (∃ finding finding', paths start tokens choice = .ok finding ∧
        paths start tokens choice' = .ok finding' ∧
        finding.outcome.failure = none ∧ finding'.outcome.failure = none ∧
        finding.outcome.found.Perm finding'.outcome.found) ∧
      count start tokens choice = .ok (start.preorder.countP e.accepts) ∧
      count start tokens choice' = .ok (start.preorder.countP e.accepts) := by
  have pure := Query.isPure_of_parse hq
  refine ⟨⟨_, _, paths_eq hc hq start, paths_eq hc' hq start, Search.failure_paths pure order start,
    Search.failure_paths pure order' start, Search.found_paths_perm pure order order' start⟩,
    count_eq hc hq start, count_eq hc' hq start⟩

/-- Into depth, and by a name level by level, the same two files are found. -/
theorem paths_perm_and_count_nested :
    Query.parse Query.filesQuery = .ok (.kind .file) ∧
    Strategy.Choice.strategy (.exactly .depthFirst) = .ok .depthFirst ∧
    Strategy.Choice.strategy (.called (.text "BFS".toList)) = .ok .breadthFirst ∧
    count (.ofTree Search.nested) Query.filesQuery (.exactly .depthFirst) = .ok 2 ∧
    count (.ofTree Search.nested) Query.filesQuery (.called (.text "BFS".toList)) =
      .ok 2 := by
  have hq := Query.parse_filesQuery
  have named : Strategy.Choice.strategy (.called (.text "BFS".toList)) = .ok .breadthFirst := rfl
  have files : (Node.ofTree Search.nested).preorder.countP (Expr.accepts (.kind .file)) = 2 := by
    decide +kernel
  have itself : Strategy.Choice.strategy (.exactly .depthFirst) = .ok .depthFirst := rfl
  obtain ⟨-, into_depth, by_levels⟩ :=
    paths_perm_and_count hq itself named (.ofTree Search.nested)
  rw [files] at into_depth by_levels
  exact ⟨hq, itself, named, into_depth, by_levels⟩

end Find

end DirectoryListing
