import DirectoryListing.Expr
import DirectoryListing.Log

/-!
# Queries

A query is a list of tokens that spells an expression. From the loosest binding to the tightest:

    query       = expressions
    expressions = disjunction*
    disjunction = conjunction ("-o" conjunction)*
    conjunction = negation (["-a"] negation)*
    negation    = "!" negation | test
    test        = "-name" pattern
                | "-type" ("f" | "d")
                | "-size" ["+" | "-"] digits
                | "(" expressions ")"

Operators of one level associate to the left, and neighbours without an operator are joined as by
`-a`. Nothing at all spells the expression that always holds.

## Main definitions

* `Query.Error`: why tokens spell no expression
* `Query.parse tokens`: the expression that tokens spell

## Implementation notes

There is a function for every level. It reads from the front of the tokens and hands back what is
left, together with the proof that this is less (`Query.Less`) or not more (`Query.NoMore`): each
level may call the ones below it on the same tokens, and a higher one only on fewer.

A machine that runs this may refuse to read a numeral of more than some thousand digits, or to have
more than some thousand calls under way at a time. Such limits are idealised away: the argument of a
size test may have any number of digits, and a query may be nested to any depth.
-/

namespace DirectoryListing

namespace Query

/-! ## Errors -/

/-- Why tokens spell no expression. -/
inductive Error where
  /-- The query ends where an operand belongs. -/
  | unexpectedEnd
  /-- A token that starts no test stands where an operand belongs. -/
  | unknownToken (token : Text)
  /-- The query ends where a test's argument belongs. -/
  | missingArgument (test : Text)
  /-- A kind that is neither file nor directory. -/
  | badKind (argument : Text)
  /-- A size that is not a sign, if any, and digits. -/
  | badSize (argument : Text)
  /-- An opening parenthesis without a closing one; something else stands there, or nothing. -/
  | unclosed (found : Option Text)
  /-- A closing parenthesis without an opening one. -/
  | unopened (token : Text)
  deriving DecidableEq, Repr

namespace Error

/-- The wrong token, if one is; a query that ends too early has none. -/
def token : Error → Option Text
  | unexpectedEnd | missingArgument _ => none
  | unclosed found => found
  | unknownToken t | badKind t | badSize t | unopened t => some t

/-- The text of an error. -/
def message : Error → Text
  | unexpectedEnd => "unexpected end of expression".toList
  | unknownToken t => "unknown expression - ".toList ++ t
  | missingArgument test => "missing argument to ".toList ++ test
  | badKind t => "invalid argument for -type - ".toList ++ t
  | badSize t => "invalid argument for -size - ".toList ++ t
  | unclosed _ => "unbalanced parentheses - missing )".toList
  | unopened t => "unbalanced parentheses - unexpected ".toList ++ t

/-- The fault of tokens that spell no expression. -/
def fault (e : Error) : Fault := .query e.message e.token

end Error

/-! ## Arguments -/

/-- The size test of an argument: a sign, if any, and ASCII digits. More is meant by a plus sign,
less by a minus sign, and exactly as much by none. -/
def sizeTest? (argument : Text) : Option Expr :=
  let (side, digits) : Ordering × Text := match argument with
    | '+' :: rest => (.gt, rest)
    | '-' :: rest => (.lt, rest)
    | rest => (.eq, rest)
  if !digits.isEmpty && digits.all Text.isDigit then some (.size side (Text.toNat digits))
  else none

/-! ## Levels -/

/-- What is left of some tokens, not more than they are. -/
abbrev NoMore (tokens : List Text) := { rest : List Text // rest.length ≤ tokens.length }

/-- What is left of some tokens, less than they are. -/
abbrev Less (tokens : List Text) := { rest : List Text // rest.length < tokens.length }

/-- Joins an expression to a term that follows it, as by `-a`; an expression that always holds
gives way to the term. -/
def juxtapose : Expr → Expr → Expr
  | .always, term => term
  | e, term => .and e term

mutual

/-- Terms up to a closing parenthesis or the end, joined one by one to the expression before
them. -/
def expressions (e : Expr) (tokens : List Text) : Except Error (Expr × NoMore tokens) :=
  match tokens with
  | [] => .ok (e, ⟨[], by simp⟩)
  | token :: rest =>
    if token = [')'] then .ok (e, ⟨token :: rest, by simp⟩)
    else match disjunction (token :: rest) with
      | .error err => .error err
      | .ok (term, ⟨left, h⟩) =>
        match expressions (juxtapose e term) left with
        | .error err => .error err
        | .ok (e', ⟨left', h'⟩) => .ok (e', ⟨left', by omega⟩)
termination_by (tokens.length, 5)

/-- Conjunctions with `-o` between them. -/
def disjunction (tokens : List Text) : Except Error (Expr × Less tokens) :=
  match conjunction tokens with
  | .error err => .error err
  | .ok (e, ⟨left, h⟩) =>
    match disjuncts e left with
    | .error err => .error err
    | .ok (e', ⟨left', h'⟩) => .ok (e', ⟨left', by omega⟩)
termination_by (tokens.length, 4)

/-- Further conjunctions, each after its `-o`, joined one by one to the expression before them. -/
def disjuncts (e : Expr) (tokens : List Text) : Except Error (Expr × NoMore tokens) :=
  match tokens with
  | [] => .ok (e, ⟨[], by simp⟩)
  | token :: rest =>
    if token = "-o".toList then
      match conjunction rest with
      | .error err => .error err
      | .ok (term, ⟨left, h⟩) =>
        match disjuncts (.or e term) left with
        | .error err => .error err
        | .ok (e', ⟨left', h'⟩) => .ok (e', ⟨left', by simp only [List.length_cons]; omega⟩)
    else .ok (e, ⟨token :: rest, by simp⟩)
termination_by (tokens.length, 0)

/-- Negations next to each other or with `-a` between them. -/
def conjunction (tokens : List Text) : Except Error (Expr × Less tokens) :=
  match negation tokens with
  | .error err => .error err
  | .ok (e, ⟨left, h⟩) =>
    match conjuncts e left with
    | .error err => .error err
    | .ok (e', ⟨left', h'⟩) => .ok (e', ⟨left', by omega⟩)
termination_by (tokens.length, 3)

/-- Further negations, each after its `-a` if it has one, joined one by one to the expression before
them. -/
def conjuncts (e : Expr) (tokens : List Text) : Except Error (Expr × NoMore tokens) :=
  match tokens with
  | [] => .ok (e, ⟨[], by simp⟩)
  | token :: rest =>
    -- what a lower level cannot use is left to the level above
    if token = [')'] ∨ token = "-o".toList then .ok (e, ⟨token :: rest, by simp⟩)
    else if token = "-a".toList then
      match negation rest with
      | .error err => .error err
      | .ok (term, ⟨left, h⟩) =>
        match conjuncts (.and e term) left with
        | .error err => .error err
        | .ok (e', ⟨left', h'⟩) => .ok (e', ⟨left', by simp only [List.length_cons]; omega⟩)
    else
      match negation (token :: rest) with
      | .error err => .error err
      | .ok (term, ⟨left, h⟩) =>
        match conjuncts (.and e term) left with
        | .error err => .error err
        | .ok (e', ⟨left', h'⟩) => .ok (e', ⟨left', by omega⟩)
termination_by (tokens.length, 3)

/-- A test, with any number of exclamation marks before it. -/
def negation (tokens : List Text) : Except Error (Expr × Less tokens) :=
  match tokens with
  | [] => .error .unexpectedEnd
  | token :: rest =>
    if token = ['!'] then
      match negation rest with
      | .error err => .error err
      | .ok (e, ⟨left, h⟩) => .ok (.not e, ⟨left, by simp only [List.length_cons]; omega⟩)
    else test token rest
termination_by (tokens.length, 2)

/-- The test that starts with the token `first`, and goes on in the tokens after it. -/
def test (first : Text) (rest : List Text) : Except Error (Expr × Less (first :: rest)) :=
  if first = "-name".toList then
    match rest with
    | [] => .error (.missingArgument first)
    | pattern :: left => .ok (.name pattern, ⟨left, by simp only [List.length_cons]; omega⟩)
  else if first = "-type".toList then
    match rest with
    | [] => .error (.missingArgument first)
    | argument :: left =>
      match Kind.ofLetter? argument with
      | some k => .ok (.kind k, ⟨left, by simp only [List.length_cons]; omega⟩)
      | none => .error (.badKind argument)
  else if first = "-size".toList then
    match rest with
    | [] => .error (.missingArgument first)
    | argument :: left =>
      match sizeTest? argument with
      | some e => .ok (e, ⟨left, by simp only [List.length_cons]; omega⟩)
      | none => .error (.badSize argument)
  else if first = ['('] then
    -- nothing in the parentheses always holds
    match expressions .always rest with
    | .error err => .error err
    | .ok (_, ⟨[], _⟩) => .error (.unclosed none)
    | .ok (e, ⟨token :: left, h⟩) =>
      if token = [')'] then .ok (e, ⟨left, by simp only [List.length_cons] at h ⊢; omega⟩)
      else .error (.unclosed (some token))
  else .error (.unknownToken first)
termination_by (rest.length, 6)

end

/-- The expression that tokens spell. What is left after it has no part in one. -/
def parse (tokens : List Text) : Except Error Expr :=
  match expressions .always tokens with
  | .error err => .error err
  | .ok (e, ⟨[], _⟩) => .ok e
  | .ok (_, ⟨token :: _, _⟩) => .error (.unopened token)

/-- The record of tokens that have been read as an expression. -/
def record (tokens : List Text) (e : Expr) : Log.Record :=
  ⟨.debug, .query, "Parsed query ".toList ++ Text.bracketed (tokens.map Text.quoted) ++
    " as ".toList ++ e.render⟩

end Query

end DirectoryListing
