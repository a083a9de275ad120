import DirectoryListing.Proofs.Search.Runs
import Mathlib.Algebra.BigOperators.Group.Finset.Piecewise
import Mathlib.Algebra.Order.Group.Multiset

/-!
# Walks that share a search

Several walks may go over one search and take turns. Each takes out of the frontier what comes next,
whichever walk has put it in; and a walk that stands at a find keeps the children of the found node
back until it goes on. So a node may be found by any of the walks, but it is neither lost nor found
twice: what has been visited, what lies at and below the pending nodes and what the walks keep back
make up, after any turns, all that lies at and below the starts.

## Main definitions

* `Search.visits s`: the nodes that a search visits up to its next event
* `Cursor.batch c`: the nodes that a walk puts into the frontier as it goes on
* `Shared`, `Shared.run e order start turns`: walks over one search, and what comes of their turns

## Main results

* `Search.reaches_sweep`: what a search has done when it comes upon an event
* `Shared.conserves_run`: nothing is lost and nothing repeated, after any turns
* `Shared.run_of_ended`: what the walks have visited and found when they are all at their ends
-/

namespace DirectoryListing

namespace Search

variable {s : Search} {c : Cursor} {n : Node} {ns ms rest : List Node} {event : Event}

/-! ## One walk -/

/-- The nodes that a search visits up to its next event, in their order. -/
def visits (s : Search) : List Node :=
  match _h : s.frontier.pending with
  | [] => []
  | n :: rest =>
    match s.expr.holds n with
    | .ok false => n :: visits ((s.visitNext rest).expand n)
    | _ => [n]
termination_by s.weight
decreasing_by
  rw [weight_expand]
  have := n.weight_children_lt
  simp only [weight, visitNext, visit, _h, Node.totalWeight_cons]
  omega

theorem visits_nil (h : s.frontier.pending = []) : s.visits = [] := by
  rw [visits]
  split
  · rfl
  · rename_i h'
    cases h.symm.trans h'

theorem visits_cons (h : s.frontier.pending = n :: rest) : s.visits =
    match s.expr.holds n with
    | .ok false => n :: ((s.visitNext rest).expand n).visits
    | _ => [n] := by
  rw [visits]
  split
  · rename_i h'
    cases h.symm.trans h'
  · rename_i h'
    cases h.symm.trans h'
    rfl

/-- The nodes found at an event. -/
def Event.finds : Event → List Node
  | .found n => [n]
  | _ => []

/-- Where a walk stands at an event: at the node that is found, or at its end. -/
def Event.cursor : Event → Cursor
  | .found n => .paused n
  | _ => .ended

/-- The nodes that a walk puts into the frontier as it goes on. -/
def Cursor.batch : Cursor → List Node
  | .before start => [start]
  | .paused n => n.children
  | .ended => []

/-- All that lies at and below some nodes. -/
def below (ns : List Node) : Multiset Node :=
  ns.flatMap Node.preorder

@[simp] theorem below_nil : below [] = 0 := rfl

@[simp] theorem below_append (ns ms : List Node) : below (ns ++ ms) = below ns + below ms := by
  rw [below, List.flatMap_append, ← Multiset.coe_add, below, below]

/-- Scheduling takes nothing away from what is pending, and adds the batch. -/
theorem below_schedule (f : Frontier Node) (batch : List Node) :
    below (f.schedule batch).pending = below f.pending + below batch := by
  rw [← below_append]
  exact Multiset.coe_eq_coe.mpr ((f.perm_pending_schedule batch).flatMap_right Node.preorder)

/-- All that lies at and below the pending nodes comes out of a frontier. -/
theorem coe_order (f : Frontier Node) : (f.order : Multiset Node) = below f.pending :=
  Multiset.coe_eq_coe.mpr f.order_perm

/-- What a search has done on its way to an event. It has counted the nodes that it visits and those
of them that it finds, which are the ones that its expression holds of. Unless the expression had no
answer, these nodes are the first to come out of the frontier, and the others come out when the walk
goes on. -/
structure Reaches (s : Search) (event : Event) (s' : Search) : Prop where
  expr : s'.expr = s.expr
  finds : s.visits.filter s.expr.accepts = event.finds
  visited : s'.visited = s.visited + s.visits.length
  matched : s'.matched = s.matched + event.finds.length
  order : (∀ e, event ≠ .failed e) →
    s.frontier.order = s.visits ++ (s'.resume event.cursor).frontier.order
  exhausted : event = .exhausted → s'.frontier.pending = []

/-- **A search comes upon its next event** in this way. -/
theorem reaches_sweep (s : Search) : s.Reaches s.sweep.1 s.sweep.2 := by
  -- nothing is pending, the next node has no answer, or is a find, or is passed over
  fun_induction sweep s with
  | case1 s h =>
    have none := visits_nil h
    exact ⟨rfl, by rw [none]; rfl, by rw [none]; rfl, rfl, fun _ => by rw [none]; rfl, fun _ => h⟩
  | case2 s n rest h s' e he =>
    have last : s.visits = [n] := by rw [visits_cons h, he]
    have rejected : s.expr.accepts n = false := by rw [Expr.accepts, he]
    refine ⟨rfl, ?_, by rw [last]; rfl, rfl, fun hne => absurd rfl (hne e),
      Event.noConfusion⟩
    rw [last, List.filter_cons_of_neg (by simp [rejected]), List.filter_nil]
    rfl
  | case3 s n rest h s' he =>
    have last : s.visits = [n] := by rw [visits_cons h, he]
    have accepted : s.expr.accepts n = true := by rw [Expr.accepts, he]
    refine ⟨rfl, ?_, by rw [last]; rfl, rfl, fun _ => ?_, Event.noConfusion⟩
    · rw [last, List.filter_cons_of_pos accepted, List.filter_nil]
      rfl
    · rw [last, Frontier.order_of_cons h]
      rfl
  | case4 s n rest h s' he ih =>
    have passed : s.visits = n :: (s'.expand n).visits := by
      rw [visits_cons h, he]
      rfl
    have rejected : s.expr.accepts n = false := by rw [Expr.accepts, he]
    refine ⟨ih.expr, ?_, ?_, ih.matched, fun hne => ?_, ih.exhausted⟩
    · rw [passed, List.filter_cons_of_neg (by simp [rejected])]
      exact ih.finds
    · rw [ih.visited, passed, List.length_cons]
      simp only [s', expand, visit]
      omega
    · rw [Frontier.order_of_cons h, passed, List.cons_append, ← ih.order hne]
      rfl

/-- A search does not fail if its expression has an answer for all that comes out of its frontier. -/
theorem sweep_ne_failed (he : ∀ n ∈ s.frontier.order, s.expr.Answers n)
    (failure : Expr.NotAnExpression) : s.sweep.1 ≠ .failed failure := by
  fun_induction sweep s with
  | case1 | case3 => exact Event.noConfusion
  | case2 s n rest h s' e failed =>
    obtain ⟨b, answer⟩ := he n (Frontier.order_of_cons h ▸ List.mem_cons_self)
    cases failed.symm.trans answer
  | case4 s n rest h s' _ ih =>
    refine ih fun m hm => he m ?_
    rw [Frontier.order_of_cons h]
    exact List.mem_cons_of_mem n hm

theorem expr_resume (s : Search) (c : Cursor) : (s.resume c).expr = s.expr := by
  cases c <;> rfl

/-- As a walk goes on, what it has kept back is pending. -/
theorem below_resume (s : Search) (c : Cursor) :
    below (s.resume c).frontier.pending = below s.frontier.pending + below c.batch := by
  cases c with
  | before start => exact below_schedule _ _
  | paused n => exact below_schedule _ _
  | ended => exact (add_zero _).symm

/-- What a search visits, what is pending then and what the walk keeps back was pending before. -/
theorem Reaches.balance {s' : Search} (h : s.Reaches event s') (he : ∀ e, event ≠ .failed e) :
    s.visits + below s'.frontier.pending + below event.cursor.batch = below s.frontier.pending := by
  rw [add_assoc, ← below_resume, ← coe_order, ← coe_order, h.order he, Multiset.coe_add]

/-- No more nodes are counted as found than as visited, up to the next event. -/
theorem Reaches.matched_le {s' : Search} (h : s.Reaches event s') (hle : s.matched ≤ s.visited) :
    s'.matched ≤ s'.visited := by
  have fewer : event.finds.length ≤ s.visits.length := by
    rw [← h.finds]
    exact List.length_filter_le _ _
  rw [h.matched, h.visited]
  exact Nat.add_le_add hle fewer

/-- A walk that begins counts anew, and any other goes on with the counts as they are. -/
theorem matched_le_resume (h : s.matched ≤ s.visited) (c : Cursor) :
    (s.resume c).matched ≤ (s.resume c).visited := by
  cases c with
  | before start => exact Nat.le_refl 0
  | paused n => exact h
  | ended => exact h

/-- A walk that is not at its end comes upon the next event of the search. -/
theorem advance_of_ne_ended (hc : c ≠ .ended) : s.advance c =
    (some (s.resume c).sweep.1, (s.resume c).sweep.1.cursor, (s.resume c).sweep.2) := by
  rw [advance_eq hc]
  rcases (s.resume c).sweep with ⟨_ | _ | _, s'⟩ <;> rfl

end Search

/-! ## Walks in turns -/

/-- Walks over one search: the search, where each walk stands, the nodes that have been visited so
far, and the events that the walks have come upon. -/
structure Shared (ι : Type) where
  search : Search
  cursor : ι → Search.Cursor
  visited : List Node
  events : List Search.Event

namespace Shared

open Search

variable {ι : Type} [DecidableEq ι] {w : Shared ι} {i : ι} {e : Expr} {order : Strategy}
  {start : ι → Node} {turns : List ι} {walks : Finset ι}

/-- Walks over a search that has not begun, each before its start. -/
def new (e : Expr) (order : Strategy) (start : ι → Node) : Shared ι :=
  ⟨.new e (.empty order), fun i => .before (start i), [], []⟩

/-- One of the walks goes on to its next event. One that is at its end comes upon nothing. -/
def turn (w : Shared ι) (i : ι) : Shared ι :=
  match w.search.advance (w.cursor i) with
  | (none, _, _) => w
  | (some event, c, s) =>
    ⟨s, Function.update w.cursor i c, w.visited ++ (w.search.resume (w.cursor i)).visits,
      w.events ++ [event]⟩

/-- The walks go on in these turns. -/
def run (e : Expr) (order : Strategy) (start : ι → Node) (turns : List ι) : Shared ι :=
  turns.foldl turn (new e order start)

/-- The nodes found so far, by whichever walk. -/
def found (w : Shared ι) : List Node :=
  w.events.flatMap Event.finds

theorem turn_of_ended (h : w.cursor i = .ended) : w.turn i = w := by
  rw [turn, h]
  rfl

theorem turn_of_ne_ended (h : w.cursor i ≠ .ended) :
    let s := w.search.resume (w.cursor i)
    w.turn i = ⟨s.sweep.2, Function.update w.cursor i s.sweep.1.cursor, w.visited ++ s.visits,
      w.events ++ [s.sweep.1]⟩ := by
  rw [turn, advance_of_ne_ended h]

theorem run_snoc (e : Expr) (order : Strategy) (start : ι → Node) (turns : List ι) (i : ι) :
    run e order start (turns ++ [i]) = (run e order start turns).turn i := by
  rw [run, List.foldl_append]
  rfl

/-! ## What is counted and found -/

/-- The expression is the same all along, the finds are the visited nodes that it holds of, and no
more are counted as found than as visited. -/
structure Counts (e : Expr) (w : Shared ι) : Prop where
  expr : w.search.expr = e
  found : w.found = w.visited.filter e.accepts
  matched : w.search.matched ≤ w.search.visited

theorem Counts.turn (h : Counts e w) (i : ι) : Counts e (w.turn i) := by
  by_cases hi : w.cursor i = .ended
  · rwa [turn_of_ended hi]
  · rw [turn_of_ne_ended hi]
    have expr : (w.search.resume (w.cursor i)).expr = e := (expr_resume _ _).trans h.expr
    have reaches := reaches_sweep (w.search.resume (w.cursor i))
    have finds := reaches.finds
    rw [expr] at finds
    refine ⟨reaches.expr.trans expr, ?_, ?_⟩
    · rw [Shared.found, List.flatMap_append, List.flatMap_singleton, List.filter_append, finds]
      exact congrArg (· ++ _) h.found
    · exact reaches.matched_le (matched_le_resume h.matched _)

/-- **After any turns** the finds are the visited nodes that the expression holds of, and the counts
say no less. -/
theorem counts_run (e : Expr) (order : Strategy) (start : ι → Node) (turns : List ι) :
    Counts e (run e order start turns) := by
  induction turns using List.reverseRecOn with
  | nil => exact ⟨rfl, rfl, Nat.le_refl 0⟩
  | append_singleton turns i ih =>
    rw [run_snoc]
    exact ih.turn i

/-! ## What is conserved -/

/-- What has been visited, what lies at and below the pending nodes, and what the walks keep back
make up all that lies at and below their starts. Nodes are pending only as long as one of the walks
stands at a find. -/
structure Conserves (start : ι → Node) (walks : Finset ι) (w : Shared ι) : Prop where
  balance : w.visited + below w.search.frontier.pending + ∑ i ∈ walks, below (w.cursor i).batch =
    ∑ i ∈ walks, ((start i).preorder : Multiset Node)
  waiting : w.search.frontier.pending ≠ [] → ∃ i ∈ walks, ∃ n, w.cursor i = .paused n

/-- What the walks keep back, when one of them comes to stand elsewhere. -/
theorem sum_batch_update (hi : i ∈ walks) (cursor : ι → Cursor) (c : Cursor) :
    ∑ j ∈ walks, below (Function.update cursor i c j).batch + below (cursor i).batch =
      ∑ j ∈ walks, below (cursor j).batch + below c.batch := by
  have others : ∑ j ∈ walks.erase i, below (Function.update cursor i c j).batch =
      ∑ j ∈ walks.erase i, below (cursor j).batch :=
    Finset.sum_congr rfl fun j hj => by rw [Function.update_of_ne (Finset.ne_of_mem_erase hj)]
  rw [← Finset.add_sum_erase _ _ hi, ← Finset.add_sum_erase walks (fun j => below (cursor j).batch) hi,
    others, Function.update_self]
  ac_rfl

/-- **A turn conserves**: what a walk visits was pending or kept back by it, and so was whatever is
pending or kept back by it then. -/
theorem Conserves.turn (h : Conserves start walks w) (hi : i ∈ walks)
    (hfail : ∀ failure, .failed failure ∉ (w.turn i).events) :
    Conserves start walks (w.turn i) := by
  by_cases hc : w.cursor i = .ended
  · rwa [turn_of_ended hc]
  · rw [turn_of_ne_ended hc] at hfail ⊢
    have reaches := reaches_sweep (w.search.resume (w.cursor i))
    have answered : ∀ failure, (w.search.resume (w.cursor i)).sweep.1 ≠ .failed failure :=
      fun failure hf => hfail failure (List.mem_append_right _ (List.mem_singleton.mpr hf.symm))
    have resumed := below_resume w.search (w.cursor i)
    generalize w.search.resume (w.cursor i) = s at *
    refine ⟨?_, fun hpending => ?_⟩
    · -- what the walk kept back before is added, so that the sums over all walks can be compared
      apply add_right_cancel (b := below (w.cursor i).batch)
      calc _ = w.visited + s.visits + below s.sweep.2.frontier.pending +
              (∑ j ∈ walks, below (w.cursor j).batch + below s.sweep.1.cursor.batch) := by
            rw [add_assoc, sum_batch_update hi, ← Multiset.coe_add]
        _ = w.visited + (s.visits + below s.sweep.2.frontier.pending + below s.sweep.1.cursor.batch) +
              ∑ j ∈ walks, below (w.cursor j).batch := by ac_rfl
        _ = w.visited + (below w.search.frontier.pending + below (w.cursor i).batch) +
              ∑ j ∈ walks, below (w.cursor j).batch := by rw [reaches.balance answered, resumed]
        _ = ∑ j ∈ walks, ((start j).preorder : Multiset Node) + below (w.cursor i).batch := by
            rw [← h.balance]
            ac_rfl
    · -- the search stops with nodes pending only at a find, and the walk stands there
      cases hevent : s.sweep.1 with
      | found n => exact ⟨i, hi, n, by simp [Event.cursor]⟩
      | exhausted => exact absurd (reaches.exhausted hevent) hpending
      | failed failure => exact absurd hevent (answered failure)

theorem mem_events_turn {event : Event} (h : event ∈ w.events) (i : ι) :
    event ∈ (w.turn i).events := by
  by_cases hc : w.cursor i = .ended
  · rwa [turn_of_ended hc]
  · rw [turn_of_ne_ended hc]
    exact List.mem_append_left _ h

/-- Walks over a search for an expression made of expressions only do not fail. -/
theorem not_failed_run (he : e.isPure = true) (order : Strategy) (start : ι → Node)
    (turns : List ι) (failure : Expr.NotAnExpression) :
    .failed failure ∉ (run e order start turns).events := by
  induction turns using List.reverseRecOn with
  | nil => exact List.not_mem_nil
  | append_singleton turns i ih =>
    rw [run_snoc]
    by_cases hc : (run e order start turns).cursor i = .ended
    · rwa [turn_of_ended hc]
    · rw [turn_of_ne_ended hc, List.mem_append, List.mem_singleton]
      refine not_or.mpr ⟨ih, (sweep_ne_failed (fun n _ => ?_) failure).symm⟩
      rw [expr_resume, (counts_run e order start turns).expr]
      exact Expr.answers_of_isPure he n

/-- **Nothing is lost and nothing repeated**, after any turns in which the expression had an
answer. -/
theorem conserves_run (hwalks : ∀ i ∈ turns, i ∈ walks)
    (hfail : ∀ failure, .failed failure ∉ (run e order start turns).events) :
    Conserves start walks (run e order start turns) := by
  induction turns using List.reverseRecOn with
  | nil =>
    refine ⟨?_, fun h => absurd rfl h⟩
    show 0 + 0 + ∑ i ∈ walks, below [start i] = _
    simp only [zero_add, below, List.flatMap_singleton]
  | append_singleton turns i ih =>
    rw [run_snoc] at hfail ⊢
    obtain ⟨earlier, hi⟩ := List.forall_mem_append.mp hwalks
    have conserved := ih earlier fun failure hf => hfail failure (mem_events_turn hf i)
    exact conserved.turn (hi i (List.mem_singleton_self i)) hfail

/-- **Interleaved walks lose and repeat nothing.** Walks over one search take turns in any order, the
expression has an answer whenever it is asked, and every walk that has had a turn is at its end. Then
the nodes visited by all of them together are those at and below the starts of these walks, each as
often as it lies there; the finds are the visited nodes that the expression holds of; and nothing is
pending. At no time were more nodes counted as found than as visited. -/
theorem run_of_ended (e : Expr) (order : Strategy) (start : ι → Node) (turns : List ι)
    (hfail : ∀ failure, .failed failure ∉ (run e order start turns).events)
    (hend : ∀ i ∈ turns, (run e order start turns).cursor i = .ended) :
    let w := run e order start turns
    (w.visited : Multiset Node) = ∑ i ∈ turns.toFinset, ((start i).preorder : Multiset Node) ∧
      w.found = w.visited.filter e.accepts ∧
      w.search.frontier.pending = [] ∧
      ∀ earlier, earlier <+: turns →
        (run e order start earlier).search.matched ≤ (run e order start earlier).search.visited := by
  intro w
  have conserved : Conserves start turns.toFinset w :=
    conserves_run (fun i hi => List.mem_toFinset.mpr hi) hfail
  -- a pending node would mean that one of the walks stands at a find
  have nothing_pending : w.search.frontier.pending = [] := by
    by_contra hpending
    obtain ⟨i, hi, n, hn⟩ := conserved.waiting hpending
    cases (hend i (List.mem_toFinset.mp hi)).symm.trans hn
  have nothing_kept : ∑ i ∈ turns.toFinset, below (w.cursor i).batch = 0 :=
    Finset.sum_eq_zero fun i hi => by
      rw [hend i (List.mem_toFinset.mp hi)]
      rfl
  have balance := conserved.balance
  rw [nothing_pending, nothing_kept, below_nil, add_zero, add_zero] at balance
  exact ⟨balance, (counts_run e order start turns).found, nothing_pending,
    fun earlier _ => (counts_run e order start earlier).matched⟩

/-- The directory inside `nested` for the inner one of two walks, and the top for the other. -/
def nestedStart (inner : Bool) : Node :=
  bif inner then nestedSub else .ofTree nested

/-- The two walks take turns, and it is the inner one that comes to its end first. -/
def nestedTurns : List Bool := [false, true, false, true, false]

/-- The inner walk comes upon the file below the directory that the outer one has scheduled, and the
outer walk comes upon this file once more, below the start of the inner one. -/
theorem run_of_ended_nested :
    let w := run (.kind .file) .breadthFirst nestedStart nestedTurns
    (∀ failure, .failed failure ∉ w.events) ∧ (∀ i ∈ nestedTurns, w.cursor i = .ended) ∧
      (w.visited : Multiset Node) =
        ↑((Node.ofTree nested).preorder ++ nestedSub.preorder) ∧
      w.found = [.under (.ofTree nested) (.held 1) (.file ⟨[], ['b'], 5⟩), nestedFile, nestedFile] ∧
      w.search.visited = 3 ∧ w.search.matched = 2 := by
  intro w
  have hfail : ∀ failure, .failed failure ∉ w.events := not_failed_run rfl _ _ _
  have hend : ∀ i ∈ nestedTurns, w.cursor i = .ended := by decide +kernel
  obtain ⟨visited, found, -, -⟩ := run_of_ended _ _ _ _ hfail hend
  refine ⟨hfail, hend, visited.trans ?_, found.trans (by decide +kernel), by decide +kernel,
    by decide +kernel⟩
  have walks : nestedTurns.toFinset = {false, true} := by decide
  rw [walks, Finset.sum_pair Bool.false_ne_true, ← Multiset.coe_add]
  rfl

end Shared

end DirectoryListing
