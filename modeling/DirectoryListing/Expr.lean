import DirectoryListing.Glob
import DirectoryListing.Node
import DirectoryListing.Value

/-!
# Expressions

An expression says which nodes a search is for: by their names, their kinds and their sizes, joined
by negation, conjunction and disjunction.

## Main definitions

* `Expr`: the expressions
* `Expr.render e`: an expression in the words of a query
* `Expr.evaluate e entry kind`: whether an expression holds of an entry
-/

namespace DirectoryListing

/-- An expression. A `foreign` one is a value that a caller put where an expression belongs; it can
be shown, but it holds of nothing and fails of nothing. -/
inductive Expr where
  /-- Holds of everything. -/
  | always
  /-- The name is described by a pattern. -/
  | name (pattern : Text)
  /-- A file, or a directory. -/
  | kind (k : Kind)
  /-- The size lies below, at or above a bound. -/
  | size (side : Ordering) (bound : Int)
  | not (e : Expr)
  | and (left right : Expr)
  | or (left right : Expr)
  | foreign (v : Value)
  deriving Inhabited

namespace Expr

/-! ## In words -/

/-- The sign in front of the bound of a size. -/
def sizeSign : Ordering → Text
  | .lt => ['-']
  | .eq => []
  | .gt => ['+']

/-- A disjunction binds loosest of all, so it alone needs parentheses as an operand. -/
def isDisjunction : Expr → Bool
  | or .. => true
  | _ => false

/-- The text of an operand, given the operand and its text as an expression. -/
def operandText (e : Expr) (text : Text) : Text :=
  if e.isDisjunction then "( ".toList ++ text ++ " )".toList else text

/-- An expression in the words of a query, with blanks between them. -/
def render : Expr → Text
  | always => []
  | name pattern => "-name ".toList ++ pattern
  | kind k => "-type ".toList ++ [k.letter]
  | size side bound => "-size ".toList ++ sizeSign side ++ Text.ofInt bound
  | not e => "! ".toList ++ operandText e e.render
  | and l r => operandText l l.render ++ " -a ".toList ++ operandText r r.render
  | or l r => l.render ++ " -o ".toList ++ r.render
  | foreign v => v.display

/-! ## Meaning -/

/-- A value that was met where an expression belongs. -/
structure NotAnExpression where
  value : Value

/-- The fault of a value that is not an expression. -/
def NotAnExpression.fault (e : NotAnExpression) : Fault :=
  .badType ("not a query expression: ".toList ++ e.value.quoted)

/-- Whether an expression holds of an entry of the given kind. The right operand of a conjunction
or disjunction is looked at only where the left one leaves the answer open. -/
def evaluate (e : Expr) (k : Kind) (entry : Entry) : Except NotAnExpression Bool :=
  match e with
  | always => .ok true
  | name pattern => .ok (Glob.describes pattern entry.name)
  | kind k' => .ok (k = k')
  | size side bound => .ok (compare (entry.size : Int) bound = side)
  | not e => (e.evaluate k entry).map (!·)
  | and l r =>
    match l.evaluate k entry with
    | .ok true => r.evaluate k entry
    | other => other
  | or l r =>
    match l.evaluate k entry with
    | .ok false => r.evaluate k entry
    | other => other
  | foreign v => .error ⟨v⟩

/-- Whether an expression holds of a node. -/
def holds (e : Expr) (n : Node) : Except NotAnExpression Bool :=
  e.evaluate n.kind n.entry

/-- The expression is made of expressions only: no foreign value is a part of it. -/
def isPure : Expr → Bool
  | foreign _ => false
  | not e => e.isPure
  | and l r | or l r => l.isPure && r.isPure
  | _ => true

/-- A pure expression always has an answer. -/
theorem exists_evaluate_of_isPure {e : Expr} (h : e.isPure = true) (k : Kind) (entry : Entry) :
    ∃ b, e.evaluate k entry = .ok b := by
  induction e with
  | not e ih =>
    obtain ⟨b, hb⟩ := ih h
    exact ⟨!b, by simp [evaluate, hb, Except.map]⟩
  | and l r ihl ihr =>
    simp only [isPure, Bool.and_eq_true] at h
    obtain ⟨b, hb⟩ := ihl h.1
    obtain ⟨c, hc⟩ := ihr h.2
    cases b <;> simp [evaluate, hb, hc]
  | or l r ihl ihr =>
    simp only [isPure, Bool.and_eq_true] at h
    obtain ⟨b, hb⟩ := ihl h.1
    obtain ⟨c, hc⟩ := ihr h.2
    cases b <;> simp [evaluate, hb, hc]
  | foreign v => simp [isPure] at h
  | _ => exact ⟨_, rfl⟩

end Expr

end DirectoryListing
