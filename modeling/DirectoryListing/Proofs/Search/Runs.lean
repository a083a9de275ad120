import DirectoryListing.Proofs.Search.Order

/-!
# Searches run to their end

A walk that is run to its end finds, of the nodes in the order of the frontier, those that the
expression holds of, and leaves nothing pending. What was pending before the walk is visited as
well: by a walk into depth after all that lies below the start, and by a walk by levels along with
it.

## Main definitions

* `Expr.Answers e n`, `Expr.accepts e n`: the expression has an answer for a node, and it is yes

## Main results

* `Search.collect_eq`: the outcome of a walk by the order of its frontier
* `Search.nodes_depthFirst`: a walk into depth is filtered pre-order
* `Search.nodes_breadthFirst`: a walk by levels is filtered level order
-/

namespace DirectoryListing

/-! ## Answers -/

namespace Expr

variable {e : Expr} {n : Node}

/-- The expression has an answer for the node. -/
def Answers (e : Expr) (n : Node) : Prop := ∃ b, e.holds n = .ok b

/-- The expression has an answer for the node, and it is yes. -/
def accepts (e : Expr) (n : Node) : Bool :=
  match e.holds n with
  | .ok b => b
  | .error _ => false

theorem Answers.holds_eq (h : e.Answers n) : e.holds n = .ok (e.accepts n) := by
  obtain ⟨b, hb⟩ := h
  rw [accepts, hb]

theorem accepts_iff : e.accepts n = true ↔ e.holds n = .ok true := by
  unfold accepts
  split
  · next b hb => rw [hb, Except.ok.injEq]
  · next failure hfailure => simp [hfailure]

theorem answers_of_isPure (h : e.isPure = true) (n : Node) : e.Answers n :=
  exists_evaluate_of_isPure h n.kind n.entry

end Expr

namespace Search

variable {α : Type} {tell : Node → Except Error α} {s : Search} {c : Cursor} {n : Node}
  {rest : List Node}

/-! ## One node -/

/-- The search after the next pending node has been visited. -/
def visitNext (s : Search) (rest : List Node) : Search :=
  s.visit { s.frontier with pending := rest }

theorem advance_eq (hc : c ≠ .ended) : s.advance c =
    match (s.resume c).sweep with
    | (.found n, s') => (some (.found n), .paused n, s')
    | (event, s') => (some event, .ended, s') := by
  cases c with
  | ended => exact absurd rfl hc
  | _ => rfl

theorem sweep_nil (h : s.frontier.pending = []) : s.sweep = (.exhausted, s) := by
  rw [sweep]
  split
  · rfl
  · rename_i h'
    cases h.symm.trans h'

theorem sweep_cons (h : s.frontier.pending = n :: rest) : s.sweep =
    match s.expr.holds n with
    | .error e => (.failed e, s.visitNext rest)
    | .ok true => (.found n, (s.visitNext rest).mark)
    | .ok false => ((s.visitNext rest).expand n).sweep := by
  rw [sweep]
  split
  · rename_i h'
    cases h.symm.trans h'
  · rename_i h'
    cases h.symm.trans h'
    rfl

/-- A walk with nothing pending is over. -/
theorem collect_nil (hc : c ≠ .ended) (h : (s.resume c).frontier.pending = []) :
    s.collect tell c = .stop none true .ended (s.resume c) := by
  rw [collect, advance_eq hc, sweep_nil h]

/-- A node that the expression does not hold of is passed over. -/
theorem collect_cons_of_not (hc : c ≠ .ended) (h : (s.resume c).frontier.pending = n :: rest)
    (hn : (s.resume c).expr.holds n = .ok false) :
    s.collect tell c = ((s.resume c).visitNext rest).collect tell (.paused n) := by
  have same : s.advance c = ((s.resume c).visitNext rest).advance (.paused n) := by
    rw [advance_eq hc, advance_eq Cursor.noConfusion, sweep_cons h, hn, resume]
  rw [collect, same, ← collect]

/-- A node that the expression holds of is a find, and the walk goes on below it. -/
theorem collect_cons_of_holds {a : α} (hc : c ≠ .ended)
    (h : (s.resume c).frontier.pending = n :: rest) (hn : (s.resume c).expr.holds n = .ok true)
    (ha : tell n = .ok a) :
    s.collect tell c = (((s.resume c).visitNext rest).mark.collect tell (.paused n)).cons a := by
  have found : s.advance c = (some (.found n), .paused n, ((s.resume c).visitNext rest).mark) := by
    rw [advance_eq hc, sweep_cons h, hn]
  rw [collect, found]
  simp only [ha]

/-! ## Whole walks -/

/-- What a walk has come to at its end: the finds, as they are told, among the nodes that come out
of the frontier, and the counts of these nodes and of the finds. -/
def completed (s : Search) (found : Node → α) : Outcome α :=
  let finds := s.frontier.order.filter s.expr.accepts
  ⟨finds.map found, none, true, .ended,
    ⟨s.expr, .empty s.frontier.strategy, s.visited + s.frontier.order.length,
      s.matched + finds.length⟩⟩

theorem completed_nil {found : Node → α} (h : s.frontier.pending = []) :
    s.completed found = .stop none true .ended s := by
  obtain ⟨e, ⟨strategy, pending⟩, visited, matched⟩ := s
  cases h
  simp [completed, Frontier.order_of_nil, Outcome.stop, Frontier.empty]

theorem completed_cons_of_not {found : Node → α} (h : s.frontier.pending = n :: rest)
    (hn : s.expr.accepts n = false) :
    s.completed found = ((s.visitNext rest).expand n).completed found := by
  simp only [completed, Frontier.order_of_cons h, visitNext, visit, expand, hn, List.length_cons,
    Frontier.strategy_schedule, Bool.false_eq_true, not_false_eq_true, List.filter_cons_of_neg,
    Nat.add_assoc, Nat.add_comm 1]

theorem completed_cons_of_holds {found : Node → α} (h : s.frontier.pending = n :: rest)
    (hn : s.expr.accepts n = true) :
    s.completed found = (((s.visitNext rest).mark.expand n).completed found).cons (found n) := by
  simp only [completed, Frontier.order_of_cons h, visitNext, visit, mark, expand, hn,
    List.length_cons, Frontier.strategy_schedule, List.filter_cons_of_pos, List.map_cons,
    Outcome.cons, Nat.add_assoc, Nat.add_comm 1]

/-- **A walk runs to its end** if the expression has an answer for every node that comes out of the
frontier, and every find can be told. -/
theorem collect_eq {found : Node → α} (hc : c ≠ .ended)
    (he : ∀ n ∈ (s.resume c).frontier.order, (s.resume c).expr.Answers n)
    (ht : ∀ n ∈ (s.resume c).frontier.order, (s.resume c).expr.accepts n = true →
      tell n = .ok (found n)) :
    s.collect tell c = (s.resume c).completed found := by
  -- by the nodes still to come out; those below the first are among them when the walk goes on
  induction ho : (s.resume c).frontier.order generalizing s c with
  | nil =>
    have hp : (s.resume c).frontier.pending = [] := Frontier.order_eq_nil_iff.mp ho
    rw [collect_nil hc hp, completed_nil hp]
  | cons n later ih =>
    obtain ⟨rest, hp, hlater⟩ := Frontier.exists_of_order_eq_cons ho
    rw [ho] at he ht
    obtain ⟨hn, he⟩ := List.forall_mem_cons.mp he
    obtain ⟨hfound, ht⟩ := List.forall_mem_cons.mp ht
    have answer := hn.holds_eq
    cases ha : (s.resume c).expr.accepts n with
    | false =>
      rw [ha] at answer
      rw [collect_cons_of_not hc hp answer, completed_cons_of_not hp ha]
      exact ih Cursor.noConfusion (hlater ▸ he) (hlater ▸ ht) hlater
    | true =>
      rw [ha] at answer
      rw [collect_cons_of_holds hc hp answer (hfound ha), completed_cons_of_holds hp ha]
      exact congrArg _ (ih Cursor.noConfusion (hlater ▸ he) (hlater ▸ ht) hlater)

/-! ## The two strategies -/

theorem asNode_eq (n : Node) : asNode n = .ok (id n) := rfl

/-- The nodes found from a start on, whatever was pending. -/
theorem nodes_eq (e : Expr) (f : Frontier Node) (visited matched : Nat) (start : Node)
    (he : ∀ n ∈ (f.schedule [start]).order, e.Answers n) :
    nodes ⟨e, f, visited, matched⟩ start = completed ⟨e, f.schedule [start], 0, 0⟩ id :=
  collect_eq Cursor.noConfusion he fun n _ _ => asNode_eq n

/-- **A walk into depth is filtered pre-order.** It finds, of the nodes at and below the start and
then of those at and below each pending node, those that the expression holds of. At its end nothing
is pending, all these nodes have been counted as visited, and the finds as found. -/
theorem nodes_depthFirst (e : Expr) (pending : List Node) (visited matched : Nat) (start : Node)
    (he : ∀ n ∈ start.preorder ++ pending.flatMap Node.preorder, e.Answers n) :
    let order := start.preorder ++ pending.flatMap Node.preorder
    let finds := order.filter e.accepts
    nodes ⟨e, ⟨.depthFirst, pending⟩, visited, matched⟩ start =
      ⟨finds, none, true, .ended, ⟨e, .empty .depthFirst, order.length, finds.length⟩⟩ := by
  intro order finds
  have ho : (Frontier.schedule ⟨.depthFirst, pending⟩ [start]).order = order :=
    Frontier.order_depthFirst rfl
  rw [nodes_eq e _ _ _ start (ho ▸ he), completed, ho, List.map_id, Nat.zero_add, Nat.zero_add]
  rfl

/-- A directory that holds a directory with a file, and another file. -/
def nested : Tree :=
  .directory .root [.directory ⟨[], ['s'], 0⟩ [.file ⟨[], ['a'], 10⟩], .file ⟨[], ['b'], 5⟩]

/-- The directory inside `nested`. -/
def nestedSub : Node :=
  .under (.ofTree nested) (.held 0) (.directory ⟨[], ['s'], 0⟩ [.file ⟨[], ['a'], 10⟩])

/-- The file inside that directory. -/
def nestedFile : Node := .under nestedSub (.held 0) (.file ⟨[], ['a'], 10⟩)

/-- Files of more than seven bytes. -/
def largeFiles : Expr := .and (.kind .file) (.size .gt 7)

/-- A walk into depth that comes upon one file twice, the second time below a pending directory. -/
theorem nodes_depthFirst_nested :
    (∀ n ∈ (Node.ofTree nested).preorder ++ [nestedSub].flatMap Node.preorder,
      largeFiles.Answers n) ∧
    nodes ⟨largeFiles, ⟨.depthFirst, [nestedSub]⟩, 9, 9⟩ (.ofTree nested) =
      ⟨[nestedFile, nestedFile], none, true, .ended, ⟨largeFiles, .empty .depthFirst, 6, 2⟩⟩ := by
  have he : ∀ n ∈ (Node.ofTree nested).preorder ++ [nestedSub].flatMap Node.preorder,
      largeFiles.Answers n := fun n _ => Expr.answers_of_isPure rfl n
  refine ⟨he, (nodes_depthFirst _ _ 9 9 _ he).trans ?_⟩
  have finds : ((Node.ofTree nested).preorder ++ [nestedSub].flatMap Node.preorder).filter
      largeFiles.accepts = [nestedFile, nestedFile] := by decide +kernel
  have count : ((Node.ofTree nested).preorder ++ [nestedSub].flatMap Node.preorder).length = 6 := by
    decide +kernel
  rw [finds, count]
  rfl

/-- **A walk by levels is filtered level order.** The pending nodes, with the start behind them, are
level zero; the walk finds, of all levels one after the other, the nodes that the expression holds
of. At its end nothing is pending, all nodes at and below those of level zero have been counted as
visited, and the finds as found. From a start alone, the walk never goes back up. -/
theorem nodes_breadthFirst (e : Expr) (pending : List Node) (visited matched : Nat) (start : Node)
    (he : ∀ n ∈ Node.levelOrder (pending ++ [start]), e.Answers n) :
    let order := Node.levelOrder (pending ++ [start])
    let finds := order.filter e.accepts
    nodes ⟨e, ⟨.breadthFirst, pending⟩, visited, matched⟩ start =
        ⟨finds, none, true, .ended,
          ⟨e, .empty .breadthFirst, Node.totalWeight (pending ++ [start]), finds.length⟩⟩ ∧
      (Frontier.schedule ⟨.breadthFirst, pending⟩ [start]).order = order ∧
      (pending = [] → order.Pairwise fun a b => a.depth ≤ b.depth) := by
  intro order finds
  have ho : (Frontier.schedule ⟨.breadthFirst, pending⟩ [start]).order = order :=
    Frontier.order_breadthFirst (pending ++ [start])
  refine ⟨?_, ho, ?_⟩
  · rw [nodes_eq e _ _ _ start (ho ▸ he), completed, Frontier.length_order, ho, List.map_id,
      Nat.zero_add, Nat.zero_add]
    rfl
  · rintro rfl
    exact Node.pairwise_depth_levelOrder start

/-- A walk by levels that visits the children of a pending directory before those of its start. -/
theorem nodes_breadthFirst_nested :
    (∀ n ∈ Node.levelOrder ([nestedSub] ++ [.ofTree nested]), largeFiles.Answers n) ∧
    nodes ⟨largeFiles, ⟨.breadthFirst, [nestedSub]⟩, 9, 9⟩ (.ofTree nested) =
      ⟨[nestedFile, nestedFile], none, true, .ended, ⟨largeFiles, .empty .breadthFirst, 6, 2⟩⟩ := by
  have he : ∀ n ∈ Node.levelOrder ([nestedSub] ++ [.ofTree nested]), largeFiles.Answers n :=
    fun n _ => Expr.answers_of_isPure rfl n
  refine ⟨he, (nodes_breadthFirst _ _ 9 9 _ he).1.trans ?_⟩
  have finds : (Node.levelOrder ([nestedSub] ++ [.ofTree nested])).filter largeFiles.accepts =
      [nestedFile, nestedFile] := by decide
  rw [finds]
  rfl

end Search

end DirectoryListing
