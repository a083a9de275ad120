import DirectoryListing.Expr
import DirectoryListing.Frontier
import DirectoryListing.Log

/-!
# Searches

A search visits nodes in the order of its frontier and finds those that its expression holds of.
It is lazy: it goes on only when the next find is asked for, and what it has not visited by then
stays in the frontier, also when it is never asked again.

## Main definitions

* `Search`: an expression, a frontier and what has been counted
* `Search.Cursor`: where a walk over a search stands
* `Search.advance s c`: the walk up to its next find
* `Search.collect`, `Search.take`: all finds of a walk, and the first few

## Main results

* `Search.weight_sweep`: up to a find, the search has visited all that it has lost

## Implementation notes

Expressions are evaluated, and told in records, by recursion over what they are made of. A limit
that a machine may set to the depth of calls is idealised away, so that neither fails for an
expression that is nested deeply or has many operands.
-/

namespace DirectoryListing

/-- An expression to search for, the nodes still to visit, and how many nodes the present walk has
visited and found. -/
structure Search where
  expr : Expr
  frontier : Frontier Node
  visited : Nat
  matched : Nat

namespace Search

/-- A search that has not begun. -/
def new (e : Expr) (f : Frontier Node) : Search := ⟨e, f, 0, 0⟩

/-! ## Options -/

/-- How a search is set up: the strategy that it is to follow. -/
structure Options where
  choice : Strategy.Choice

namespace Options

/-- Going into depth. -/
def default : Options := ⟨.exactly .depthFirst⟩

/-- The strategy of the options, or what is wrong with them: the strategy must be one, and not a
name of one. -/
def strategy (o : Options) : Except (List Text) Strategy :=
  match o.choice with
  | .exactly s => .ok s
  | .called v => .error ["strategy must be a TraversalStrategy, got ".toList ++ v.quoted]

end Options

/-! ## One step -/

/-- The search with the children of a node put into its frontier. -/
def expand (s : Search) (n : Node) : Search :=
  { s with frontier := s.frontier.schedule n.children }

/-- The search with the frontier given and one more node visited. -/
def visit (s : Search) (rest : Frontier Node) : Search :=
  { s with frontier := rest, visited := s.visited + 1 }

/-- The search with one more node found. -/
def mark (s : Search) : Search :=
  { s with matched := s.matched + 1 }

/-- How many nodes lie in the frontier and below it. -/
def weight (s : Search) : Nat :=
  Node.totalWeight s.frontier.pending

theorem weight_schedule (f : Frontier Node) (batch : List Node) :
    Node.totalWeight (f.schedule batch).pending =
      Node.totalWeight f.pending + Node.totalWeight batch := by
  unfold Frontier.schedule
  split
  · simp only [Node.totalWeight_append]
    omega
  · simp only [Node.totalWeight_append]

theorem weight_expand (s : Search) (n : Node) :
    (s.expand n).weight = s.weight + Node.totalWeight n.children :=
  weight_schedule s.frontier n.children

/-- What a search comes upon next. -/
inductive Event where
  /-- A node that the expression holds of. Its children are not in the frontier yet. -/
  | found (n : Node)
  /-- Nothing is left to visit. -/
  | exhausted
  /-- The expression has no answer for the node just visited. -/
  | failed (e : Expr.NotAnExpression)

/-- Visits nodes up to the next event. -/
def sweep (s : Search) : Event × Search :=
  match _h : s.frontier.pending with
  | [] => (.exhausted, s)
  | n :: rest =>
    let s' := s.visit { s.frontier with pending := rest }
    match s.expr.holds n with
    | .error e => (.failed e, s')
    -- the children of a found node wait until the walk goes on
    | .ok true => (.found n, s'.mark)
    | .ok false => sweep (s'.expand n)
termination_by s.weight
decreasing_by
  rw [weight_expand]
  have := n.weight_children_lt
  simp only [weight, visit, _h, Node.totalWeight_cons]
  omega

/-- A find takes the found node, with all below it, away from the frontier. -/
theorem weight_sweep {s s' : Search} {n : Node} (h : s.sweep = (.found n, s')) :
    s'.weight + n.weight ≤ s.weight := by
  fun_induction sweep s with
  | case1 => simp at h
  | case2 => simp at h
  | case3 s m rest hp s₁ hb =>
    simp only [Prod.mk.injEq, Event.found.injEq] at h
    obtain ⟨rfl, rfl⟩ := h
    simp only [s₁, weight, mark, visit, hp, Node.totalWeight_cons]
    omega
  | case4 s m rest hp s₁ hb ih =>
    have := ih h
    rw [weight_expand] at this
    have := m.weight_children_lt
    simp only [s₁, weight, visit, hp, Node.totalWeight_cons] at *
    omega

/-! ## Walks -/

/-- Where a walk over a search stands: before its start, at a node that it has found, or at its
end. -/
inductive Cursor where
  | before (start : Node)
  | paused (n : Node)
  | ended
  deriving DecidableEq

/-- How many nodes a walk adds to the frontier as it goes on, with all below them. -/
def Cursor.weight : Cursor → Nat
  | before start => start.weight + 1
  | paused n => n.weight
  | ended => 0

/-- The search as the walk goes on: counted anew and with the start in its frontier before the
start, and with the children of the node just found in its frontier after it. -/
def resume (s : Search) : Cursor → Search
  | .before start => { s with frontier := s.frontier.schedule [start], visited := 0, matched := 0 }
  | .paused n => s.expand n
  | .ended => s

/-- Goes on with a walk to its next event. A walk that is over stays so and comes upon nothing. -/
def advance (s : Search) (c : Cursor) : Option Event × Cursor × Search :=
  match c with
  | .ended => (none, .ended, s)
  | c =>
    match (s.resume c).sweep with
    | (.found n, s') => (some (.found n), .paused n, s')
    | (event, s') => (some event, .ended, s')

theorem weight_advance {s s' : Search} {c c' : Cursor} {n : Node}
    (h : s.advance c = (some (.found n), c', s')) :
    s'.weight + c'.weight < s.weight + c.weight := by
  unfold advance at h
  split at h
  · simp at h
  · next hc =>
    split at h
    · next n' s₁ hs =>
      simp only [Prod.mk.injEq, Option.some.injEq, Event.found.injEq] at h
      obtain ⟨rfl, rfl, rfl⟩ := h
      have hw := weight_sweep hs
      cases c with
      | before start =>
        have := weight_schedule s.frontier [start]
        simp only [weight, resume, Cursor.weight, Node.totalWeight_cons,
          Node.totalWeight_nil] at *
        omega
      | paused m =>
        rw [resume, weight_expand] at hw
        have := m.weight_children_lt
        simp only [Cursor.weight]
        omega
      | ended => exact absurd rfl hc
    · next hne hs =>
      simp only [Prod.mk.injEq, Option.some.injEq] at h
      obtain ⟨rfl, -, -⟩ := h
      exact absurd rfl (hne _)

/-! ## Results -/

/-- Why a search ends early: its expression has no answer, or a find cannot be told. -/
inductive Error where
  | evaluation (e : Expr.NotAnExpression)
  | outside (e : Node.Outside)

/-- The fault of a search that ends early. -/
def Error.fault : Error → Fault
  | evaluation e => e.fault
  | outside e => e.fault

/-- What a walk has come to: the finds as they are told, the error that has ended it, if one has,
whether it has visited all there was, where it stands, and the search behind it. -/
structure Outcome (α : Type) where
  found : List α
  failure : Option Error
  finished : Bool
  cursor : Cursor
  search : Search

variable {α : Type}

/-- The outcome with one more find, made before the others. -/
def Outcome.cons (a : α) (o : Outcome α) : Outcome α :=
  { o with found := a :: o.found }

/-- The outcome of a walk that makes no further find. -/
def Outcome.stop (failure : Option Error) (finished : Bool) (c : Cursor) (s : Search) :
    Outcome α :=
  ⟨[], failure, finished, c, s⟩

/-- Goes on with a walk for at most `n` finds, each told by `tell`; a find that cannot be told ends
the walk. -/
def take (tell : Node → Except Error α) : Nat → Search → Cursor → Outcome α
  | 0, s, c => .stop none false c s
  | n + 1, s, c =>
    match s.advance c with
    | (none, c', s') => .stop none false c' s'
    | (some .exhausted, c', s') => .stop none true c' s'
    | (some (.failed e), c', s') => .stop (some (.evaluation e)) false c' s'
    | (some (.found m), c', s') =>
      match tell m with
      | .error e => .stop (some e) false .ended s'
      | .ok a => (take tell n s' c').cons a

/-- Goes on with a walk to its end. -/
def collect (tell : Node → Except Error α) (s : Search) (c : Cursor) : Outcome α :=
  match _h : s.advance c with
  | (none, c', s') => .stop none false c' s'
  | (some .exhausted, c', s') => .stop none true c' s'
  | (some (.failed e), c', s') => .stop (some (.evaluation e)) false c' s'
  | (some (.found m), c', s') =>
    match tell m with
    | .error e => .stop (some e) false .ended s'
    | .ok a => (collect tell s' c').cons a
termination_by s.weight + c.weight
decreasing_by exact weight_advance _h

/-- Tells a find as the node itself. -/
def asNode (n : Node) : Except Error Node := .ok n

/-- Tells a find by its path below the start of the walk. -/
def asPath (start n : Node) : Except Error Text :=
  match n.relativePath start with
  | .ok p => .ok p
  | .error e => .error (.outside e)

/-- The nodes found from a start on. -/
def nodes (s : Search) (start : Node) : Outcome Node :=
  s.collect asNode (.before start)

/-- The paths of the nodes found from a start on, below that start. -/
def paths (s : Search) (start : Node) : Outcome Text :=
  s.collect (asPath start) (.before start)

/-- Paths as they are printed, a line each. -/
def printed (paths : List Text) : Text :=
  paths.flatMap fun p => p ++ ['\n']

/-! ## Records -/

/-- What is told of a search: its expression, the title of its frontier and its counts. -/
structure Summary where
  expression : Text
  frontier : Text
  visited : Nat
  matched : Nat

/-- The summary of a search. -/
def summary (s : Search) : Summary :=
  ⟨s.expr.render, s.frontier.strategy.title, s.visited, s.matched⟩

/-- The record of a walk that has visited all there was. -/
def record (s : Search) : Log.Record :=
  let summary := s.summary
  let fields : Value := .record [
    ("expression".toList, .text summary.expression),
    ("scheduler".toList, .text summary.frontier),
    ("nodes_visited".toList, .integer summary.visited),
    ("matches_found".toList, .integer summary.matched)]
  ⟨.debug, .search, "Search finished: ".toList ++ fields.quoted⟩

/-- The records of an outcome. -/
def Outcome.log (o : Outcome α) : List Log.Record :=
  if o.finished then [o.search.record] else []

end Search

end DirectoryListing
