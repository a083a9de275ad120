import DirectoryListing.Proofs.Search.Operators
import DirectoryListing.Proofs.Search.Shared

/-!
# Walks that are stopped

A walk may be left where it stands, at a find. It has then done what a whole walk does up to that
find, and nothing more: what it has found is the beginning of what there is to find, and what it has
visited is the beginning of what there is to visit, up to the find. All else that lies at and below
its start is still to come, and is told apart by where it lies: at and below what is pending, or
below the find, whose children the walk keeps back until it goes on.

## Main definitions

* `Search.trail n s c`: the nodes that a walk visits until it has made `n` finds
* `Search.Leads s c trail o`: a walk has come from where it stood to an outcome on this trail

## Main results

* `Search.leads_take`: what a walk has found, counted and left, however many finds it was asked for
* `Search.stands_take`: it stands at the last of the finds asked for, or else nothing is left
* `Search.take_nodes`: a walk that is stopped at a find is the beginning of a whole one
-/

namespace DirectoryListing.Search

variable {s s' : Search} {c : Cursor} {event : Event} {n : Nat} {m : Node} {o : Outcome Node}
  {later : List Node}

/-! ## From one event to the next -/

/-- A search that comes upon a find has visited it last. -/
theorem exists_visits_of_found (h : s.sweep.1 = .found m) : ∃ before, s.visits = before ++ [m] := by
  fun_induction sweep s with
  | case1 | case2 => cases h
  | case3 s n rest hp s' he =>
    cases h
    exact ⟨[], by rw [visits_cons hp, he]; rfl⟩
  | case4 s n rest hp s' he ih =>
    obtain ⟨before, hbefore⟩ := ih h
    refine ⟨n :: before, ?_⟩
    rw [visits_cons hp, he]
    exact congrArg (n :: ·) hbefore

theorem reaches_of_sweep (h : s.sweep = (event, s')) : s.Reaches event s' := by
  have reaches := reaches_sweep s
  rwa [h] at reaches

/-- What comes out of the frontier when a walk goes on from a find comes out before as well. -/
theorem answers_of_found (he : ∀ n ∈ (s.resume c).frontier.order, s.expr.Answers n)
    (h : (s.resume c).sweep = (.found m, s')) :
    ∀ n ∈ (s'.resume (.paused m)).frontier.order, s'.expr.Answers n := by
  have reaches := reaches_of_sweep h
  intro n hn
  rw [reaches.expr, expr_resume]
  refine he n ?_
  rw [reaches.order fun _ => Event.noConfusion]
  exact List.mem_append_right _ hn

/-- A walk comes upon a find, and has an answer for all nodes after it, or else it is at its end. -/
theorem found_or_exhausted (he : ∀ n ∈ (s.resume c).frontier.order, s.expr.Answers n) :
    (∃ m s', (s.resume c).sweep = (.found m, s') ∧
      ∀ n ∈ (s'.resume (.paused m)).frontier.order, s'.expr.Answers n) ∨
    ∃ s', (s.resume c).sweep = (.exhausted, s') := by
  rcases h : (s.resume c).sweep with ⟨m | _ | failure, s'⟩
  · exact .inl ⟨m, s', rfl, answers_of_found he h⟩
  · exact .inr ⟨s', rfl⟩
  · have answers : ∀ m ∈ (s.resume c).frontier.order, (s.resume c).expr.Answers m :=
      expr_resume s c ▸ he
    exact absurd (congrArg Prod.fst h) (sweep_ne_failed answers failure)

/-- The nodes that a walk visits until it has made `n` finds, or until it is over. -/
def trail : Nat → Search → Cursor → List Node
  | 0, _, _ => []
  | n + 1, s, c =>
    match s.advance c with
    | (none, _, _) => []
    | (some _, c', s') => (s.resume c).visits ++ trail n s' c'

theorem trail_ended (n : Nat) (s : Search) : s.trail n .ended = [] := by
  cases n <;> rfl

theorem trail_succ (hc : c ≠ .ended) (n : Nat) : s.trail (n + 1) c =
    (s.resume c).visits ++ (s.resume c).sweep.2.trail n (s.resume c).sweep.1.cursor := by
  rw [trail, advance_of_ne_ended hc]

theorem take_ended (n : Nat) (s : Search) :
    s.take asNode n .ended = .stop none false .ended s := by
  cases n <;> rfl

/-- A walk that comes upon a find tells it and goes on from there. -/
theorem take_of_found (hc : c ≠ .ended) (h : (s.resume c).sweep = (.found m, s')) :
    s.take asNode (n + 1) c = (s'.take asNode n (.paused m)).cons m := by
  rw [take, advance_eq hc, h]
  rfl

/-- A walk with nothing more to find is over. -/
theorem take_of_exhausted (hc : c ≠ .ended) (h : (s.resume c).sweep = (.exhausted, s')) :
    s.take asNode (n + 1) c = .stop none true .ended s' := by
  rw [take, advance_eq hc, h]

/-! ## What a walk leads to -/

/-- A walk leads on this trail to this outcome: the finds are the nodes on the trail that the
expression holds of, and the trail is counted and has come out of the frontier, with the rest still
to come out of it when the walk goes on. -/
structure Leads (s : Search) (c : Cursor) (trail : List Node) (o : Outcome Node) : Prop where
  failure : o.failure = none
  found : o.found = trail.filter s.expr.accepts
  visited : (o.search.resume o.cursor).visited = (s.resume c).visited + trail.length
  matched : (o.search.resume o.cursor).matched = (s.resume c).matched + o.found.length
  order : (s.resume c).frontier.order = trail ++ (o.search.resume o.cursor).frontier.order

/-- A walk that does not go on has no trail. -/
theorem leads_stop (s : Search) (c : Cursor) (finished : Bool) :
    s.Leads c [] (.stop none finished c s) :=
  ⟨rfl, rfl, rfl, rfl, rfl⟩

/-- **A walk to a find leads on** from there. -/
theorem Leads.of_found (h : (s.resume c).sweep = (.found m, s'))
    (leads : s'.Leads (.paused m) later o) :
    s.Leads c ((s.resume c).visits ++ later) (o.cons m) := by
  have reaches := reaches_of_sweep h
  have same : s'.expr = s.expr := reaches.expr.trans (expr_resume s c)
  have finds : (s.resume c).visits.filter s.expr.accepts = [m] := expr_resume s c ▸ reaches.finds
  refine ⟨leads.failure, ?_, ?_, ?_, ?_⟩
  · rw [List.filter_append, finds, ← same, ← leads.found]
    rfl
  · calc (o.search.resume o.cursor).visited
        = s'.visited + later.length := leads.visited
      _ = (s.resume c).visited + ((s.resume c).visits ++ later).length := by
        rw [reaches.visited, List.length_append, Nat.add_assoc]
  · calc (o.search.resume o.cursor).matched
        = s'.matched + o.found.length := leads.matched
      _ = (s.resume c).matched + (o.cons m).found.length := by
        rw [reaches.matched, Nat.add_assoc, Nat.add_comm _ o.found.length]
        rfl
  · rw [List.append_assoc]
    exact (reaches.order fun _ => Event.noConfusion).trans (congrArg _ leads.order)

/-- A walk with nothing more to find leads to its end. -/
theorem leads_of_exhausted (h : (s.resume c).sweep = (.exhausted, s')) :
    s.Leads c (s.resume c).visits (.stop none true .ended s') := by
  have reaches := reaches_of_sweep h
  exact ⟨rfl, (expr_resume s c ▸ reaches.finds).symm, reaches.visited, reaches.matched,
    reaches.order fun _ => Event.noConfusion⟩

/-- **What a walk leads to**, however many finds it is asked for, if the expression has an answer for
all nodes to come. -/
theorem leads_take (n : Nat) (he : ∀ m ∈ (s.resume c).frontier.order, s.expr.Answers m) :
    s.Leads c (s.trail n c) (s.take asNode n c) := by
  -- by the finds still asked for, each of which is one sweep of the search as the walk goes on
  induction n generalizing s c with
  | zero => exact leads_stop s c false
  | succ n ih =>
    by_cases hc : c = .ended
    · rw [hc, trail_ended, take_ended]
      exact leads_stop s .ended false
    · rw [trail_succ hc]
      obtain ⟨m, s', hsweep, later⟩ | ⟨s', hsweep⟩ := found_or_exhausted he
      · rw [take_of_found hc hsweep, hsweep]
        exact .of_found hsweep (ih later)
      · have stays : trail n s' Event.exhausted.cursor = [] := trail_ended n s'
        rw [take_of_exhausted hc hsweep, hsweep, stays, List.append_nil]
        exact leads_of_exhausted hsweep

/-! ## Where a walk stands -/

/-- A walk has made the `n` finds that it was asked for. It stands at the last of them, which it has
visited last, or where it stood before if it was asked for none. -/
structure Stands (c : Cursor) (n : Nat) (trail : List Node) (o : Outcome Node) : Prop where
  count : o.found.length = n
  finished : o.finished = false
  last : trail.getLast? = o.found.getLast?
  cursor : o.cursor = o.found.getLast?.elim c .paused

/-- A walk has come to its end before it has made `n` finds, and nothing is left to visit. -/
structure Ends (n : Nat) (o : Outcome Node) : Prop where
  count : o.found.length < n
  finished : o.finished = true
  cursor : o.cursor = .ended
  pending : o.search.frontier.pending = []

/-- A walk to a find stands where it comes to stand from there. -/
theorem Stands.of_found (h : (s.resume c).sweep = (.found m, s'))
    (stands : Stands (.paused m) n later o) :
    Stands c (n + 1) ((s.resume c).visits ++ later) (o.cons m) := by
  obtain ⟨before, hvisits⟩ := exists_visits_of_found (congrArg Prod.fst h)
  refine ⟨congrArg (· + 1) stands.count, stands.finished, ?_, ?_⟩
  · rw [hvisits, Outcome.cons, List.getLast?_cons, List.getLast?_append, stands.last,
      List.getLast?_concat, Option.or_some]
  · rw [Outcome.cons, List.getLast?_cons, stands.cursor]
    cases o.found.getLast? <;> rfl

/-- **Where a walk stands** that was asked for some finds: at the last of them, or at its end. -/
theorem stands_or_ends_take (hc : c ≠ .ended) (n : Nat)
    (he : ∀ m ∈ (s.resume c).frontier.order, s.expr.Answers m) :
    Stands c n (s.trail n c) (s.take asNode n c) ∨ Ends n (s.take asNode n c) := by
  induction n generalizing s c with
  | zero => exact .inl ⟨rfl, rfl, rfl, rfl⟩
  | succ n ih =>
    rw [trail_succ hc]
    obtain ⟨m, s', hsweep, later⟩ | ⟨s', hsweep⟩ := found_or_exhausted he
    · rw [take_of_found hc hsweep, hsweep]
      refine (ih Cursor.noConfusion later).imp (fun stands => stands.of_found hsweep) fun ends => ?_
      exact ⟨Nat.succ_lt_succ ends.count, ends.finished, ends.cursor, ends.pending⟩
    · rw [take_of_exhausted hc hsweep]
      exact .inr ⟨Nat.succ_pos n, rfl, rfl, (reaches_of_sweep hsweep).exhausted rfl⟩

/-- A walk that comes to its end has had a trail of all there was to visit. -/
theorem Leads.of_ends (leads : s.Leads c later o) (ends : Ends n o) :
    later = (s.resume c).frontier.order := by
  rw [leads.order, ends.cursor, resume, Frontier.order_of_nil ends.pending, List.append_nil]

/-- What a walk has found is the beginning of what there is to find. -/
theorem Leads.found_prefix (leads : s.Leads c later o) :
    o.found <+: (s.resume c).frontier.order.filter s.expr.accepts := by
  rw [leads.order, List.filter_append, ← leads.found]
  exact List.prefix_append _ _

/-- A walk that is asked for no more finds than there are stands at the last of them. -/
theorem stands_take (hc : c ≠ .ended) (he : ∀ m ∈ (s.resume c).frontier.order, s.expr.Answers m)
    (hn : n ≤ ((s.resume c).frontier.order.filter s.expr.accepts).length) :
    Stands c n (s.trail n c) (s.take asNode n c) := by
  refine (stands_or_ends_take hc n he).resolve_right fun ends => ?_
  have leads := leads_take n he
  have found := leads.found
  rw [leads.of_ends ends] at found
  exact absurd ends.count (Nat.not_lt.mpr (found ▸ hn))

/-- A walk that is asked for more finds than there are visits all there is to visit. -/
theorem trail_of_lt (hc : c ≠ .ended) (he : ∀ m ∈ (s.resume c).frontier.order, s.expr.Answers m)
    (hn : ((s.resume c).frontier.order.filter s.expr.accepts).length < n) :
    s.trail n c = (s.resume c).frontier.order := by
  have leads := leads_take n he
  refine leads.of_ends ((stands_or_ends_take hc n he).resolve_left fun stands => ?_)
  have fewer := leads.found_prefix.length_le
  rw [stands.count] at fewer
  exact absurd hn (Nat.not_lt.mpr fewer)

/-! ## The beginning of a whole walk -/

/-- A walk that was asked for some finds and has made them has visited the last of them last. -/
theorem Stands.exists_last (stands : Stands c n later o) (hpos : 1 ≤ n) :
    ∃ before last, later = before ++ [last] ∧ o.found[n - 1]? = some last ∧
      o.cursor = .paused last := by
  have finds : o.found ≠ [] := List.ne_nil_of_length_pos (stands.count ▸ hpos)
  have hlast : o.found.getLast? = some (o.found.getLast finds) :=
    List.getLast?_eq_some_getLast finds
  obtain ⟨before, hbefore⟩ := List.getLast?_eq_some_iff.mp (stands.last.trans hlast)
  refine ⟨before, o.found.getLast finds, hbefore, ?_, ?_⟩
  · rw [← stands.count, ← List.getLast?_eq_getElem?, hlast]
  · rw [stands.cursor, hlast]
    rfl

/-- What comes out of a frontier that a batch is put into lies at and below what was pending, or at
and below the batch. -/
theorem perm_order_schedule (f : Frontier Node) (batch : List Node) :
    (f.schedule batch).order.Perm
      (f.pending.flatMap Node.preorder ++ batch.flatMap Node.preorder) := by
  rw [← List.flatMap_append]
  exact (f.schedule batch).order_perm.trans
    ((f.perm_pending_schedule batch).flatMap_right Node.preorder)

/-- What is still to come, for a walk that stands at a find, lies at and below the pending nodes, or
below that find. -/
theorem Leads.perm_of_paused (leads : s.Leads c later o) (h : o.cursor = .paused m) :
    (s.resume c).frontier.order.Perm (later ++ o.search.frontier.pending.flatMap Node.preorder ++
      m.children.flatMap Node.preorder) := by
  rw [leads.order, h, List.append_assoc]
  exact (perm_order_schedule o.search.frontier m.children).append_left later

/-- Among nodes that are all different, a node has as many before it as its position says. -/
theorem idxOf_append_cons_of_nodup {before rest : List Node} (h : (before ++ m :: rest).Nodup) :
    (before ++ m :: rest).idxOf m = before.length := by
  have fresh : m ∉ before := fun hm => (List.nodup_append.mp h).2.2 m hm m List.mem_cons_self rfl
  rw [List.idxOf_append_of_notMem fresh, List.idxOf_cons_self, Nat.add_zero]

/-- **A walk that is stopped at a find is the beginning of a whole one.** It starts with nothing
pending, has an answer for every node at and below its start, and is asked for some of the finds that
there are. Then it makes the first of them and stands at the last of these, having counted what it
has found and what it has visited, which is the beginning, up to that find, of what a walk visits
that is asked for more finds than there are. What it has visited, what lies at and below the pending
nodes, and what lies below the last find make up all that lies at and below the start, and nothing is
in two of them. If the walk does not go on, the children of that find stay away: a walk from
elsewhere finds the pending nodes in the frontier and no others. A walk that is asked for nothing
leaves the search as it is. -/
theorem take_nodes (e : Expr) (order : Strategy) (visited matched : Nat) (start : Node) (n : Nat)
    (he : ∀ m ∈ start.preorder, e.Answers m) (hpos : 1 ≤ n)
    (hn : n ≤ (nodes ⟨e, .empty order, visited, matched⟩ start).found.length) :
    let s : Search := ⟨e, .empty order, visited, matched⟩
    let whole := s.nodes start
    let stopped := s.take asNode n (.before start)
    let trail := s.trail n (.before start)
    let all := s.trail (whole.found.length + 1) (.before start)
    let pending := stopped.search.frontier.pending
    ∃ last,
      stopped.found = whole.found.take n ∧ whole.found[n - 1]? = some last ∧
      stopped.failure = none ∧ stopped.finished = false ∧ stopped.cursor = .paused last ∧
      stopped.search.matched = n ∧ stopped.search.visited = all.idxOf last + 1 ∧
      all = visitOrder order start ∧ trail = all.take stopped.search.visited ∧
      start.preorder.Perm (trail ++ pending.flatMap Node.preorder ++
        last.children.flatMap Node.preorder) ∧
      (trail ++ pending.flatMap Node.preorder ++ last.children.flatMap Node.preorder).Nodup ∧
      (∀ other : Node, (stopped.search.resume (.before other)).frontier.order.Perm
        (pending.flatMap Node.preorder ++ other.preorder)) ∧
      s.take asNode 0 (.before start) = .stop none false (.before start) s := by
  intro s whole stopped trail all pending
  have hc : Cursor.before start ≠ .ended := Cursor.noConfusion
  have answers : ∀ m ∈ (s.resume (.before start)).frontier.order, s.expr.Answers m :=
    fun m hm => he m (mem_order_schedule_empty.mp hm)
  have found : whole.found = (visitOrder order start).filter e.accepts := by
    simp only [whole, s, nodes_eq e _ visited matched start answers, completed, List.map_id,
      visitOrder]
  -- one find more than there are is one too many, so that walk goes to its end
  have all_eq : all = visitOrder order start :=
    trail_of_lt hc answers (Nat.lt_succ_of_le (Nat.le_of_eq (congrArg List.length found).symm))
  have leads : s.Leads (.before start) trail stopped := leads_take n answers
  have stands : Stands (.before start) n trail stopped := stands_take hc answers (found ▸ hn)
  obtain ⟨before, last, htrail, hlast, hcursor⟩ := stands.exists_last hpos
  have first : stopped.found = whole.found.take n := by
    rw [found, ← stands.count]
    exact List.prefix_iff_eq_take.mp leads.found_prefix
  -- the last find is the last node on the trail, and comes out of the frontier once
  have rest := leads.order
  have count := leads.visited
  have finds := leads.matched
  rw [hcursor] at rest count finds
  have visited_eq : stopped.search.visited = trail.length := count.trans (Nat.zero_add _)
  have place : all.idxOf last + 1 = trail.length := by
    have nodup : (visitOrder order start).Nodup := nodup_order_schedule_empty order start
    have here : visitOrder order start =
        before ++ last :: (stopped.search.expand last).frontier.order := by
      rw [List.append_cons, ← htrail]
      exact rest
    rw [here] at nodup
    rw [all_eq, here, idxOf_append_cons_of_nodup nodup, htrail, List.length_append,
      List.length_singleton]
  have parts : start.preorder.Perm (trail ++ pending.flatMap Node.preorder ++
      last.children.flatMap Node.preorder) :=
    (perm_order_schedule_empty order start).symm.trans (leads.perm_of_paused hcursor)
  refine ⟨last, first, ?_, leads.failure, stands.finished, hcursor, ?_, visited_eq.trans place.symm,
    all_eq, ?_, parts, parts.nodup_iff.mp start.nodup_preorder, fun other => ?_, rfl⟩
  · rwa [first, List.getElem?_take_of_lt (Nat.sub_lt hpos Nat.one_pos)] at hlast
  · exact finds.trans ((Nat.zero_add _).trans stands.count)
  · rw [all_eq, visited_eq]
    exact List.prefix_iff_eq_take.mp ⟨_, rest.symm⟩
  · have perm := perm_order_schedule stopped.search.frontier [other]
    rwa [List.flatMap_singleton] at perm

/-- The walk into depth for directories, asked for two of them. It stands at the inner directory and
keeps the file in it back, while the file beside that directory is pending. -/
theorem take_nodes_nested :
    let s : Search := ⟨.kind .directory, .empty .depthFirst, 9, 9⟩
    let stopped := s.take asNode 2 (.before (.ofTree nested))
    (∀ m ∈ (Node.ofTree nested).preorder, s.expr.Answers m) ∧
      2 ≤ (s.nodes (.ofTree nested)).found.length ∧
      stopped.found = [.ofTree nested, nestedSub] ∧ stopped.cursor = .paused nestedSub ∧
      stopped.search.visited = 2 ∧ stopped.search.matched = 2 ∧
      stopped.search.frontier.pending = [.under (.ofTree nested) (.held 1) (.file ⟨[], ['b'], 5⟩)] ∧
      nestedSub.children = [nestedFile] := by
  intro s stopped
  have he : ∀ m ∈ (Node.ofTree nested).preorder, s.expr.Answers m :=
    fun m _ => Expr.answers_of_isPure rfl m
  have hn : 2 ≤ (s.nodes (.ofTree nested)).found.length := by decide +kernel
  obtain ⟨last, found, hlast, -, -, cursor, matched, visited, -⟩ :=
    take_nodes (.kind .directory) .depthFirst 9 9 (.ofTree nested) 2 he (by decide) hn
  obtain rfl : last = nestedSub := by
    have : (s.nodes (.ofTree nested)).found[1]? = some nestedSub := by decide +kernel
    exact Option.some.inj (hlast.symm.trans this)
  exact ⟨he, hn, found.trans (by decide +kernel), cursor, visited.trans (by decide +kernel), matched,
    by decide +kernel, by decide +kernel⟩

end DirectoryListing.Search
