import DirectoryListing.Proofs.Search.Paths

/-!
# Searches end

A walk ends in one of two ways, whatever is searched for and whatever was pending: it has visited
all there was, or the expression has had no answer for a node. A third way, that a find cannot be
told, is left only to a search told by paths that meets a node which does not lie at or below its
start, and such a node must have been pending before.

## Main definitions

* `Search.Outcome.HasEnded o`: the walk is over, and no find is to blame

## Main results

* `Search.hasEnded_collect`: a walk ends if its finds can be told
* `Search.hasEnded_nodes`, `Search.hasEnded_paths`: finds told as nodes, and by paths
-/

namespace DirectoryListing.Search

variable {α : Type} {tell : Node → Except Error α} {s : Search} {c : Cursor} {n : Node}
  {rest : List Node}

/-- A walk is over: it has visited all there was and nothing is pending, or its expression has had
no answer for a node. -/
structure Outcome.HasEnded (o : Outcome α) : Prop where
  cursor : o.cursor = .ended
  reason : (o.finished = true ∧ o.failure = none ∧ o.search.frontier.pending = []) ∨
    ∃ e, o.failure = some (.evaluation e)

/-- A find that comes before others has no part in whether their walk is over. -/
theorem Outcome.HasEnded.cons {o : Outcome α} (h : o.HasEnded) (a : α) : (o.cons a).HasEnded :=
  ⟨h.cursor, h.reason⟩

/-- A node that the expression has no answer for ends the walk. -/
theorem collect_cons_of_error {e : Expr.NotAnExpression} (hc : c ≠ .ended)
    (h : (s.resume c).frontier.pending = n :: rest) (hn : (s.resume c).expr.holds n = .error e) :
    s.collect tell c = .stop (some (.evaluation e)) false .ended ((s.resume c).visitNext rest) := by
  have failed : s.advance c = (some (.failed e), .ended, (s.resume c).visitNext rest) := by
    rw [advance_eq hc, sweep_cons h, hn]
  rw [collect, failed]

/-- **A walk ends** if its finds can be told. -/
theorem hasEnded_collect (hc : c ≠ .ended)
    (ht : ∀ n ∈ (s.resume c).frontier.order, ∃ a, tell n = .ok a) :
    (s.collect tell c).HasEnded := by
  -- by the nodes still to come out, of which there is one less after each
  induction ho : (s.resume c).frontier.order generalizing s c with
  | nil =>
    have hp : (s.resume c).frontier.pending = [] := Frontier.order_eq_nil_iff.mp ho
    rw [collect_nil hc hp]
    exact ⟨rfl, .inl ⟨rfl, rfl, hp⟩⟩
  | cons n later ih =>
    obtain ⟨rest, hp, hlater⟩ := Frontier.exists_of_order_eq_cons ho
    rw [ho] at ht
    obtain ⟨⟨a, ha⟩, ht⟩ := List.forall_mem_cons.mp ht
    cases hn : (s.resume c).expr.holds n with
    | error e =>
      rw [collect_cons_of_error hc hp hn]
      exact ⟨rfl, .inr ⟨e, rfl⟩⟩
    | ok found =>
      cases found with
      | false =>
        rw [collect_cons_of_not hc hp hn]
        exact ih Cursor.noConfusion (hlater ▸ ht) hlater
      | true =>
        rw [collect_cons_of_holds hc hp hn ha]
        have ended : (((s.resume c).visitNext rest).mark.collect tell (.paused n)).HasEnded :=
          ih Cursor.noConfusion (hlater ▸ ht) hlater
        exact ended.cons a

/-- **A search ends**, from any start on and whatever was pending. -/
theorem hasEnded_nodes (s : Search) (start : Node) : (s.nodes start).HasEnded :=
  hasEnded_collect Cursor.noConfusion fun n _ => ⟨n, rfl⟩

/-- **A search told by paths ends** if nothing was pending but what lies at or below its start. -/
theorem hasEnded_paths {start : Node} (h : ∀ n ∈ s.frontier.pending, n ∈ start.preorder) :
    (s.paths start).HasEnded := by
  refine hasEnded_collect Cursor.noConfusion fun n hn => ?_
  obtain ⟨m, hm, below⟩ := Frontier.mem_order.mp hn
  have hm : m ∈ s.frontier.pending ++ [start] :=
    (Frontier.perm_pending_schedule s.frontier [start]).subset hm
  rcases List.mem_append.mp hm with hm | hm
  · exact ⟨_, asPath_eq (Node.mem_preorder_trans (h m hm) n below)⟩
  · rw [List.mem_singleton.mp hm] at below
    exact ⟨_, asPath_eq below⟩

end DirectoryListing.Search
