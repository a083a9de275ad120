import DirectoryListing.Proofs.Query.Errors

/-!
# Progress of reading

Every operand takes at least one token, so every reading at a level stops behind the place where it
started. A disjunction stops at a closing parenthesis or at the end only: a token that could start
one more operand is taken by the conjunction, and what else could stand there is an error. So a list
of terms is over behind its first term. Although terms are read in a loop, no two are ever joined,
and what is missed behind an opening parenthesis, or left over behind the query, is known.

## How long reading takes

The levels call each other and themselves, and end because each call is on fewer tokens or at a
tighter level. How deep the calls go is counted by a reader that does what the levels do, but gives
up at a given depth, and counts a further round of a loop as a call. The depth that always suffices
grows by five with each token, for a token opens at most the five levels of the grammar, as a
parenthesis does.

## Main definitions

* `Query.AtClose tokens`: a closing parenthesis comes next, or nothing
* `Query.Task`: what can be under way while a query is read
* `Query.within n task tokens`: reading that gives up after `n` calls, one in another
* `Query.parseWithin n tokens`: the expression that tokens spell, read in this way
* `Query.Progresses tokens`: how reading moves on in a query, and where it stops

## Main results

* `Query.exists_drop_of_read`: an operand stops behind its start, in the query
* `Query.atClose_of_readDisjunction`: a disjunction stops at a closing parenthesis or the end
* `Query.readExpressions_eq_ite`: a list of terms is one term, or none
* `Query.within_eq`: a depth that suffices
* `Query.progresses`: all of this, for every query
-/

namespace DirectoryListing.Query

variable {tokens left rest : List Text} {token first : Text} {e : Expr} {i n : Nat}

/-! ## Where readings stop -/

/-- A closing parenthesis comes next, or nothing. -/
def AtClose (tokens : List Text) : Prop :=
  tokens.head? = none ∨ tokens.head? = some [')']

instance : DecidablePred AtClose := fun _ => inferInstanceAs (Decidable (_ ∨ _))

theorem atClose_nil : AtClose [] := .inl rfl

theorem atClose_cons_iff : AtClose (token :: rest) ↔ token = [')'] := by
  simp [AtClose]

/-- This is where a disjunction ends. -/
theorem ends_disjunction_iff : Level.disjunction.Ends left ↔ AtClose left := by
  rcases left with _ | ⟨token, left⟩
  · exact iff_of_true (.inr (.inr (by simp))) atClose_nil
  · simp [Level.Ends, Level.stops, atClose_cons_iff]

/-- **A disjunction stops** at a closing parenthesis or at the end. -/
theorem atClose_of_readDisjunction (h : readDisjunction tokens = .ok (e, left)) : AtClose left := by
  obtain ⟨used, -, -, ends⟩ := sound_read .disjunction tokens e left h
  exact ends_disjunction_iff.mp ends

/-- Behind a term, the list of terms is over, whatever has been read of it. -/
theorem readExpressions_of_readDisjunction {term : Expr}
    (h : readDisjunction tokens = .ok (term, left)) (e : Expr) :
    readExpressions e left = .ok (e, left) :=
  readExpressions_of_ends (ends_disjunction_iff.mpr (atClose_of_readDisjunction h))

/-- **A reading below the list of terms** has moved on where it stops, and not past the last
token. -/
theorem exists_drop_of_read (level : Level) (hl : level ≠ .expressions)
    (h : level.read (tokens.drop i) = .ok (e, left)) :
    ∃ j, i < j ∧ j ≤ tokens.length ∧ left = tokens.drop j := by
  obtain ⟨used, parts, -, -⟩ := sound_read level (tokens.drop i) e left h
  have less : left.length < tokens.length - i := by
    rw [← List.length_drop]
    exact length_lt_of_read level hl h
  have total : tokens.length - i = used.length + left.length := by
    rw [← List.length_drop, parts, List.length_append]
  refine ⟨i + used.length, by omega, by omega, ?_⟩
  rw [← List.drop_drop, parts, List.drop_left]

/-- **A list of terms** is one term, or none. -/
theorem readExpressions_eq_ite (tokens : List Text) : readExpressions .always tokens =
    if AtClose tokens then .ok (.always, tokens) else readDisjunction tokens := by
  split
  · next h => exact readExpressions_of_ends (ends_disjunction_iff.mpr h)
  · next h =>
    rcases tokens with _ | ⟨token, rest⟩
    · exact absurd atClose_nil h
    rw [readExpressions_cons .always (mt atClose_cons_iff.mpr h)]
    cases hr : readDisjunction (token :: rest) with
    | error err => rfl
    | ok x =>
      obtain ⟨term, left⟩ := x
      rw [Reading.andThen_ok]
      exact readExpressions_of_readDisjunction hr (juxtapose .always term)

/-- **What is missed behind an opening parenthesis** is always at the end. -/
theorem eq_none_of_read_eq_unclosed (level : Level) {found : Option Text}
    (h : level.read tokens = .error (.unclosed found)) : found = none :=
  blames_read level tokens _ h

/-! ## Tests without parentheses -/

/-- A test that holds no other expression, by its first token and the tokens after it. -/
def readPlainTest (first : Text) (rest : List Text) : Reading :=
  if first = "-name".toList then readArgument first (fun pattern => .ok (.name pattern)) rest
  else if first = "-type".toList then
    readArgument first (fun argument => match Kind.ofLetter? argument with
      | some k => .ok (.kind k)
      | none => .error (.badKind argument)) rest
  else if first = "-size".toList then
    readArgument first (fun argument => match sizeTest? argument with
      | some e => .ok e
      | none => .error (.badSize argument)) rest
  else .error (.unknownToken first)

theorem readTest_of_ne_open (h : first ≠ ['(']) (rest : List Text) :
    readTest first rest = readPlainTest first rest := by
  unfold readPlainTest
  split
  · next hn =>
    subst hn
    exact readTest_name rest
  split
  · next hk =>
    subst hk
    exact readTest_kind rest
  split
  · next hs =>
    subst hs
    exact readTest_size rest
  · exact readTest_unknown ‹_› ‹_› ‹_› h rest

/-! ## Reading within a bound -/

/-- What can be under way while a query is read: a level of the grammar, or the operands that follow
an expression at one of the levels that go on in a loop. -/
inductive Task where
  | expressions (e : Expr)
  | disjunction
  | disjuncts (e : Expr)
  | conjunction
  | conjuncts (e : Expr)
  | negation
  | test

namespace Task

/-- What comes of it, however long it takes. -/
def read : Task → List Text → Reading
  | expressions e => readExpressions e
  | disjunction => readDisjunction
  | disjuncts e => readDisjuncts e
  | conjunction => readConjunction
  | conjuncts e => readConjuncts e
  | negation => readNegation
  | test => Level.test.read

/-- How many calls, one in another, it takes before the next token is taken. -/
def rank : Task → Nat
  | expressions _ => 5
  | disjunction => 4
  | conjunction | conjuncts _ => 3
  | negation => 2
  | test | disjuncts _ => 1

theorem rank_pos (task : Task) : 0 < task.rank := by
  cases task <;> exact Nat.succ_pos _

theorem rank_le (task : Task) : task.rank ≤ 5 := by
  cases task <;> simp [rank]

/-- How many calls, one in another, it takes at most. -/
def cost (task : Task) (tokens : List Text) : Nat := 5 * tokens.length + task.rank

/-- Whatever is under way on fewer tokens takes less. -/
theorem cost_lt (task task' : Task) (h : rest.length < tokens.length) :
    task.cost rest < task'.cost tokens := by
  have most := task.rank_le
  have least := task'.rank_pos
  rw [cost, cost]
  omega

/-- What is called on fewer tokens stays within the bound that is left to it. -/
theorem cost_le (task : Task) {task' : Task} (h : task'.cost tokens ≤ n + 1)
    (hrest : rest.length < tokens.length) : task.cost rest ≤ n :=
  Nat.le_of_lt_succ (Nat.lt_of_lt_of_le (task.cost_lt task' hrest) h)

end Task

/-- Reads on where a reading within a bound stops. -/
def furtherWithin (r : Option Reading) (next : Expr → List Text → Option Reading) :
    Option Reading :=
  match r with
  | none => none
  | some (.error err) => some (.error err)
  | some (.ok (e, left)) => next e left

/-- The end of a test in parentheses, behind the list of terms. -/
def close (e : Expr) : List Text → Reading
  | [] => .error (.unclosed none)
  | token :: left => if token = [')'] then .ok (e, left) else .error (.unclosed (some token))

/-- Reading that gives up, without a result, where it has come to `n` calls, one in another. A
further round of a loop is a call as well. -/
def within : Nat → Task → List Text → Option Reading
  | 0, _, _ => none
  | n + 1, .expressions e, tokens =>
    if AtClose tokens then some (.ok (e, tokens))
    else furtherWithin (within n .disjunction tokens) fun term left =>
      within n (.expressions (juxtapose e term)) left
  | n + 1, .disjunction, tokens =>
    furtherWithin (within n .conjunction tokens) fun e left => within n (.disjuncts e) left
  | _ + 1, .disjuncts e, [] => some (.ok (e, []))
  | n + 1, .disjuncts e, token :: rest =>
    if token = "-o".toList then
      furtherWithin (within n .conjunction rest) fun term left =>
        within n (.disjuncts (.or e term)) left
    else some (.ok (e, token :: rest))
  | n + 1, .conjunction, tokens =>
    furtherWithin (within n .negation tokens) fun e left => within n (.conjuncts e) left
  | _ + 1, .conjuncts e, [] => some (.ok (e, []))
  | n + 1, .conjuncts e, token :: rest =>
    if token = [')'] ∨ token = "-o".toList then some (.ok (e, token :: rest))
    else furtherWithin (within n .negation (if token = "-a".toList then rest else token :: rest))
      fun term left => within n (.conjuncts (.and e term)) left
  | _ + 1, .negation, [] => some (.error .unexpectedEnd)
  | n + 1, .negation, token :: rest =>
    if token = ['!'] then
      furtherWithin (within n .negation rest) fun e left => some (.ok (.not e, left))
    else within n .test (token :: rest)
  | _ + 1, .test, [] => some (.error .unexpectedEnd)
  | n + 1, .test, first :: rest =>
    if first = ['('] then
      furtherWithin (within n (.expressions .always) rest) fun e left => some (close e left)
    else some (readPlainTest first rest)

/-- The expression that tokens spell, read with at most `n` calls, one in another. -/
def parseWithin (n : Nat) (tokens : List Text) : Option (Except Error Expr) :=
  (within n (.expressions .always) tokens).map fun
    | .error err => .error err
    | .ok (e, []) => .ok e
    | .ok (_, token :: _) => .error (.unopened token)

/-- Reading on within a bound is reading on, if what is read then stays within the bound. -/
theorem furtherWithin_some {r : Reading} {next : Expr → List Text → Option Reading}
    {next' : Expr → List Text → Reading}
    (h : ∀ e left, r = .ok (e, left) → next e left = some (next' e left)) :
    furtherWithin (some r) next = some (r.andThen next') := by
  rcases r with err | ⟨e, left⟩
  · rfl
  · exact h e left rfl

section Enough

variable {us : List Text}

variable (ih : ∀ (task : Task) (tokens : List Text), task.cost tokens ≤ n →
  within n task tokens = some (task.read tokens))

include ih

/-- An operand takes a token, so that what follows it is read on fewer tokens. -/
theorem within_operand {task : Task} (level : Level) (hlevel : level ≠ .expressions)
    (operand : task.read = level.read) (next : Expr → Task) (h : task.cost us ≤ n) :
    furtherWithin (within n task us) (fun e left => within n (next e) left) =
      some ((level.read us).andThen fun e left => (next e).read left) := by
  rw [ih task us h, operand]
  refine furtherWithin_some fun e left hr => ih (next e) left ?_
  have less : left.length < us.length := length_lt_of_read level hlevel hr
  exact Nat.le_trans (Nat.le_of_lt ((next e).cost_lt task less)) h

theorem within_expressions (h : (Task.expressions e).cost tokens ≤ n + 1) :
    within (n + 1) (.expressions e) tokens = some (readExpressions e tokens) := by
  rw [within]
  split
  · next hc => rw [readExpressions_of_ends (ends_disjunction_iff.mpr hc)]
  · next hc =>
    rcases tokens with _ | ⟨token, rest⟩
    · exact absurd atClose_nil hc
    rw [readExpressions_cons e (mt atClose_cons_iff.mpr hc)]
    exact within_operand ih .disjunction (by decide) rfl _ (Nat.le_of_succ_le_succ h)

theorem within_disjunction (h : Task.disjunction.cost tokens ≤ n + 1) :
    within (n + 1) .disjunction tokens = some (readDisjunction tokens) := by
  rw [within, readDisjunction_eq]
  exact within_operand ih .conjunction (by decide) rfl _ (Nat.le_of_succ_le_succ h)

theorem within_disjuncts (h : (Task.disjuncts e).cost tokens ≤ n + 1) :
    within (n + 1) (.disjuncts e) tokens = some (readDisjuncts e tokens) := by
  rcases tokens with _ | ⟨token, rest⟩
  · rw [within, readDisjuncts_nil]
  rw [within]
  split
  · next ho =>
    subst ho
    rw [readDisjuncts_or]
    exact within_operand ih .conjunction (by decide) rfl _ (Task.cost_le _ h (Nat.lt_succ_self _))
  · next ho => rw [readDisjuncts_cons e ho]

theorem within_conjunction (h : Task.conjunction.cost tokens ≤ n + 1) :
    within (n + 1) .conjunction tokens = some (readConjunction tokens) := by
  rw [within, readConjunction_eq]
  exact within_operand ih .negation (by decide) rfl _ (Nat.le_of_succ_le_succ h)

theorem within_conjuncts (h : (Task.conjuncts e).cost tokens ≤ n + 1) :
    within (n + 1) (.conjuncts e) tokens = some (readConjuncts e tokens) := by
  rcases tokens with _ | ⟨token, rest⟩
  · rw [within, readConjuncts_nil]
  rw [within]
  split
  · next hend => rw [readConjuncts_end e hend]
  · next hend =>
    split
    · next ha =>
      subst ha
      rw [readConjuncts_and]
      exact within_operand ih .negation (by decide) rfl _ (Task.cost_le _ h (Nat.lt_succ_self _))
    · next ha =>
      rw [readConjuncts_cons e hend ha]
      exact within_operand ih .negation (by decide) rfl _ (Nat.le_of_succ_le_succ h)

theorem within_negation (h : Task.negation.cost tokens ≤ n + 1) :
    within (n + 1) .negation tokens = some (readNegation tokens) := by
  rcases tokens with _ | ⟨token, rest⟩
  · rw [within, readNegation_nil]
  rw [within]
  split
  · next hnot =>
    subst hnot
    rw [readNegation_not, ih .negation rest (Task.cost_le _ h (Nat.lt_succ_self _))]
    exact furtherWithin_some fun e left _ => rfl
  · next hnot =>
    rw [readNegation_cons hnot]
    exact ih .test (token :: rest) (Nat.le_of_succ_le_succ h)

theorem within_test (h : Task.test.cost tokens ≤ n + 1) :
    within (n + 1) .test tokens = some (Level.test.read tokens) := by
  rcases tokens with _ | ⟨first, rest⟩
  · rfl
  rw [within]
  split
  · next ho =>
    subst ho
    -- parentheses open all levels again, but they have taken a token before
    rw [ih (.expressions .always) rest (Task.cost_le _ h (Nat.lt_succ_self _))]
    show _ = some (readTest ['('] rest)
    rw [readTest_open]
    refine furtherWithin_some fun e left _ => ?_
    cases left <;> rfl
  · next ho => rw [← readTest_of_ne_open ho, Level.read]

end Enough

/-- **A depth suffices** of five calls for each token, and of as many as there are levels to open
before the first one. -/
theorem within_eq (task : Task) (tokens : List Text) (h : task.cost tokens ≤ n) :
    within n task tokens = some (task.read tokens) := by
  induction n generalizing task tokens with
  | zero => exact absurd h (Nat.not_le_of_gt (Nat.lt_add_left _ task.rank_pos))
  | succ n ih =>
    cases task with
    | expressions e => exact within_expressions ih h
    | disjunction => exact within_disjunction ih h
    | disjuncts e => exact within_disjuncts ih h
    | conjunction => exact within_conjunction ih h
    | conjuncts e => exact within_conjuncts ih h
    | negation => exact within_negation ih h
    | test => exact within_test ih h

theorem parseWithin_eq (h : 5 * tokens.length + 5 ≤ n) :
    parseWithin n tokens = some (parse tokens) := by
  rw [parseWithin, within_eq (.expressions .always) tokens h, parse_eq]
  rfl

/-! ## Whole queries -/

/-- How reading moves on in a query, and where it stops. -/
structure Progresses (tokens : List Text) : Prop where
  /-- From wherever a negation starts, it stops further on, and not past the last token. -/
  negation : ∀ i e left, readNegation (tokens.drop i) = .ok (e, left) →
    ∃ j, i < j ∧ j ≤ tokens.length ∧ left = tokens.drop j
  /-- Where a disjunction stops, a closing parenthesis comes next, or nothing. -/
  disjunction : ∀ i e left, readDisjunction (tokens.drop i) = .ok (e, left) → AtClose left
  /-- Behind a term, the list of terms is over, so that no other one is joined to it. -/
  terms : ∀ i term left, readDisjunction (tokens.drop i) = .ok (term, left) →
    ∀ e, readExpressions e left = .ok (e, left)
  /-- A list of terms is one term, or none. -/
  expressions : ∀ i, readExpressions .always (tokens.drop i) =
    if AtClose (tokens.drop i) then .ok (.always, tokens.drop i)
    else readDisjunction (tokens.drop i)
  /-- Reading comes to a result, at a depth of five calls for each token and five more. -/
  ends : ∀ n, 5 * tokens.length + 5 ≤ n → parseWithin n tokens = some (parse tokens)
  /-- What is found in place of a closing parenthesis is the end of the query. -/
  unclosed : ∀ (level : Level) i found,
    level.read (tokens.drop i) = .error (.unclosed found) → found = none
  /-- What is left over is a closing parenthesis. -/
  unopened : ∀ token, parse tokens = .error (.unopened token) → token = [')']

/-- **Reading moves on in every query**, and stops where a level ends. -/
theorem progresses (tokens : List Text) : Progresses tokens where
  negation _ _ _ h := exists_drop_of_read .negation (by decide) h
  disjunction _ _ _ h := atClose_of_readDisjunction h
  terms _ _ _ h := readExpressions_of_readDisjunction h
  expressions i := readExpressions_eq_ite (tokens.drop i)
  ends _ h := parseWithin_eq h
  unclosed level _ _ h := eq_none_of_read_eq_unclosed level h
  unopened _ h := (isOf_of_parse h).1

/-- A test in parentheses that are closed twice. -/
def closedTwice : List Text := [['('], "-name".toList, ['a'], [')'], [')']]

/-- What is left over is the second closing parenthesis, which is found at a depth of thirty. -/
theorem progresses_closedTwice : parseWithin 30 closedTwice = some (parse closedTwice) ∧
    parse closedTwice = .error (.unopened [')']) := by
  have bounded := (progresses closedTwice).ends 30 (by decide)
  have found : parseWithin 30 closedTwice = some (.error (.unopened [')'])) := rfl
  exact ⟨bounded, Option.some.inj (bounded.symm.trans found)⟩

end DirectoryListing.Query
