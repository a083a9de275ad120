import DirectoryListing.Proofs.Query.Errors
import DirectoryListing.Proofs.Query.Grouped
import DirectoryListing.Proofs.Search.Paths

/-!
# What operators on queries find

A search visits the same nodes in the same order whatever it is for, and finds some of them. So the
operators of queries are set operations on finds: a negation finds what the query does not, and two
queries joined by an operator find what both do, or what at least one of them does.

## Main definitions

* `Search.visitOrder order start`: the nodes that a search visits
* `Search.Finds order start tokens found visited`: what a search by a query finds

## Main results

* `Search.finds_of_parse`: a search finds, of the nodes that it visits, those its query holds of
* `Search.finds_operators`: operators on queries are set operations on finds
-/

namespace DirectoryListing

/-! ## Answers of joined expressions -/

namespace Expr

variable {e f g : Expr} {n : Node}

theorem accepts_always (n : Node) : always.accepts n = true := rfl

theorem accepts_not (h : e.Answers n) : (not e).accepts n = !e.accepts n := by
  obtain ⟨b, hb⟩ := h
  rw [holds] at hb
  simp only [accepts, holds, evaluate, hb, Except.map]

theorem accepts_and (he : e.Answers n) (hf : f.Answers n) :
    (and e f).accepts n = (e.accepts n && f.accepts n) := by
  obtain ⟨b, hb⟩ := he
  obtain ⟨c, hc⟩ := hf
  rw [holds] at hb hc
  cases b <;> simp only [accepts, holds, evaluate, hb, hc, Bool.false_and, Bool.true_and]

theorem accepts_or (he : e.Answers n) (hf : f.Answers n) :
    (or e f).accepts n = (e.accepts n || f.accepts n) := by
  obtain ⟨b, hb⟩ := he
  obtain ⟨c, hc⟩ := hf
  rw [holds] at hb hc
  cases b <;> simp only [accepts, holds, evaluate, hb, hc, Bool.false_or, Bool.true_or]

/-- Expressions that mean the same accept the same nodes. -/
theorem accepts_congr (h : ∀ k entry, g.evaluate k entry = e.evaluate k entry) (n : Node) :
    g.accepts n = e.accepts n := by
  rw [accepts, accepts, holds, holds, h]

end Expr

/-! ## What searches find -/

namespace Search

variable {order : Strategy} {start : Node} {q r tokens : List Text} {e f g : Expr}

/-- The nodes that a search visits from a start on, in its order. -/
def visitOrder (order : Strategy) (start : Node) : List Node :=
  ((Frontier.empty order).schedule [start]).order

/-- A search by the tokens of a query runs from a start to its end. It finds these nodes in this
order, having visited so many. -/
def Finds (order : Strategy) (start : Node) (tokens : List Text) (found : List Node)
    (visited : Nat) : Prop :=
  ∃ e, Query.parse tokens = .ok e ∧
    (new e (.empty order)).nodes start =
      ⟨found, none, true, .ended, ⟨e, .empty order, visited, found.length⟩⟩

/-- **A search finds**, of the nodes that it visits, those that its query holds of. -/
theorem finds_of_parse (h : Query.parse tokens = .ok e) (order : Strategy) (start : Node) :
    Finds order start tokens ((visitOrder order start).filter e.accepts)
      (visitOrder order start).length := by
  have answers : ∀ n ∈ ((Frontier.empty order).schedule [start]).order, e.Answers n :=
    fun n _ => Expr.answers_of_isPure (Query.isPure_of_parse h) n
  refine ⟨e, h, ?_⟩
  rw [new, nodes_eq e _ 0 0 start answers, completed, List.map_id, Nat.zero_add, Nat.zero_add,
    Frontier.strategy_schedule]
  rfl

/-- Nodes that are chosen among those visited may as well be chosen by what accepts them. -/
theorem Finds.of_accepts {p : Node → Prop} [DecidablePred p] (h : Query.parse tokens = .ok g)
    (hp : ∀ n ∈ visitOrder order start, (g.accepts n = true ↔ p n)) :
    Finds order start tokens ((visitOrder order start).filter p)
      (visitOrder order start).length := by
  have same : (visitOrder order start).filter g.accepts = (visitOrder order start).filter p :=
    List.filter_congr fun n hn => by rw [Bool.eq_iff_iff, hp n hn, decide_eq_true_eq]
  exact same ▸ finds_of_parse h order start

/-- **Operators on queries are set operations on finds.** Let `all` be what is found by the empty
query, that is, all that a search visits from the start on, and let `ms` and `ns` be what two
queries find. Then `ms` comes from `all` by leaving nodes out, the negated query finds the nodes that
were left out, a conjunction the nodes in both, and a disjunction those in at least one, always in
the order of `all`. -/
theorem finds_operators (hq : Query.parse q = .ok e) (hr : Query.parse r = .ok f)
    (order : Strategy) (start : Node) :
    ∃ all ms ns : List Node,
      Finds order start [] all all.length ∧ all.Nodup ∧
      Finds order start q ms all.length ∧ Finds order start r ns all.length ∧
      ms.Sublist all ∧
      Finds order start (['!'] :: Query.grouped q) (all.filter (· ∉ ms)) all.length ∧
      Finds order start (Query.grouped q ++ "-a".toList :: Query.grouped r)
        (all.filter fun n => n ∈ ms ∧ n ∈ ns) all.length ∧
      Finds order start (Query.grouped q ++ Query.grouped r)
        (all.filter fun n => n ∈ ms ∧ n ∈ ns) all.length ∧
      Finds order start (Query.grouped q ++ "-o".toList :: Query.grouped r)
        (all.filter fun n => n ∈ ms ∨ n ∈ ns) all.length ∧
      (q ≠ [] → r ≠ [] → Finds order start (q ++ "-o".toList :: r)
        (all.filter fun n => n ∈ ms ∨ n ∈ ns) all.length) := by
  have answersq : ∀ n, e.Answers n := Expr.answers_of_isPure (Query.isPure_of_parse hq)
  have answersr : ∀ n, f.Answers n := Expr.answers_of_isPure (Query.isPure_of_parse hr)
  -- a visited node is found exactly when the query accepts it
  have found : ∀ (g : Expr), ∀ n ∈ visitOrder order start,
      (n ∈ (visitOrder order start).filter g.accepts ↔ g.accepts n = true) := fun g n hn => by
    rw [List.mem_filter]
    exact and_iff_right hn
  have both : ∀ n ∈ visitOrder order start, ((Expr.and e f).accepts n = true ↔
      n ∈ (visitOrder order start).filter e.accepts ∧
        n ∈ (visitOrder order start).filter f.accepts) := fun n hn => by
    rw [Expr.accepts_and (answersq n) (answersr n), Bool.and_eq_true, found e n hn, found f n hn]
  have either : ∀ n ∈ visitOrder order start, ((Expr.or e f).accepts n = true ↔
      n ∈ (visitOrder order start).filter e.accepts ∨
        n ∈ (visitOrder order start).filter f.accepts) := fun n hn => by
    rw [Expr.accepts_or (answersq n) (answersr n), Bool.or_eq_true, found e n hn, found f n hn]
  refine ⟨visitOrder order start, _, _, ?_, nodup_order_schedule_empty order start,
    finds_of_parse hq order start, finds_of_parse hr order start, List.filter_sublist,
    .of_accepts (Query.parse_not_grouped hq) fun n hn => ?_,
    .of_accepts (Query.parse_and_grouped hq hr) both,
    .of_accepts (Query.parse_beside_grouped hq hr) both,
    .of_accepts (Query.parse_or_grouped hq hr) either, fun hqne hrne => ?_⟩
  · have everything := finds_of_parse Query.parse_nil order start
    rwa [List.filter_eq_self.mpr fun n _ => Expr.accepts_always n] at everything
  · rw [Expr.accepts_not (answersq n), found e n hn, Bool.not_eq_true', Bool.not_eq_true]
  · obtain ⟨g, hg, same⟩ := Query.exists_parse_or hq hr hqne hrne
    exact .of_accepts hg fun n hn => by rw [Expr.accepts_congr same n, either n hn]

/-- A search finds the same nodes whenever it is run. -/
theorem Finds.eq {ms ns : List Node} {i j : Nat} (h : Finds order start tokens ms i)
    (h' : Finds order start tokens ns j) : ms = ns := by
  obtain ⟨e, he, hm⟩ := h
  obtain ⟨f, hf, hn⟩ := h'
  obtain rfl : e = f := Except.ok.inj (he.symm.trans hf)
  exact congrArg Outcome.found (hm.symm.trans hn)

/-- Asks for what has one of two names, of which the first looks like a parenthesis. -/
def namesQuery : List Text := ["-name".toList, [')'], "-o".toList, "-name".toList, ['s']]

/-- Level by level, the one query finds two files, and the other the directory before them. -/
theorem finds_operators_nested :
    Query.parse Query.filesQuery = .ok (.kind .file) ∧
    Query.parse namesQuery = .ok (.or (.name [')']) (.name ['s'])) ∧
    Finds .breadthFirst (.ofTree nested) (['!'] :: Query.grouped Query.filesQuery)
      [.ofTree nested, nestedSub] 4 ∧
    Finds .breadthFirst (.ofTree nested) (Query.filesQuery ++ "-o".toList :: namesQuery)
      [nestedSub, .under (.ofTree nested) (.held 1) (.file ⟨[], ['b'], 5⟩), nestedFile] 4 := by
  have hq := Query.parse_filesQuery
  have hr : Query.parse namesQuery = .ok (.or (.name [')']) (.name ['s'])) :=
    Query.parse_eq_ok_iff.mpr (.term (.or (.disjunct (.conjunct (.test (.name [')']))))
      (.conjunct (.test (.name ['s'])))))
  obtain ⟨all, ms, ns, hall, -, hms, hns, -, hnot, -, -, -, hor⟩ :=
    finds_operators hq hr .breadthFirst (.ofTree nested)
  have visits : visitOrder .breadthFirst (.ofTree nested) = [.ofTree nested, nestedSub,
      .under (.ofTree nested) (.held 1) (.file ⟨[], ['b'], 5⟩), nestedFile] :=
    (Frontier.order_breadthFirst _).trans (by decide)
  obtain rfl := hall.eq (finds_of_parse Query.parse_nil _ _)
  obtain rfl := hms.eq (finds_of_parse hq _ _)
  obtain rfl := hns.eq (finds_of_parse hr _ _)
  rw [visits] at hnot hor
  refine ⟨hq, hr, hnot, ?_⟩
  convert hor (by decide) (by decide) using 1 <;> decide +kernel

end Search

end DirectoryListing
