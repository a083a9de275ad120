import DirectoryListing.Proofs.Query.Errors

/-!
# Incomplete queries and wrong ones

A query that is rejected is incomplete or wrong: either more tokens behind it make it a query, or
none do. Which of the two it is shows in the error, as an error blames a token exactly when the
query is wrong.

Both halves are settled level by level. A reading that stops at a token, in error or not, has seen
all that it depends on, so it stops there whatever stands behind (`Stable`). And a reading that is
in error without a token has come to the end of the query inside of a term that can still be
finished, from the inside out: an argument for the test, a closing parenthesis, an operand
(`Completable`).

## Main definitions

* `Query.Reading.Stops`: the reading stops at a token
* `Query.Stable read tokens`: once the reading stops at one of these tokens, it always does
* `Query.Completable level tokens`: more tokens make these spell an expression at a level

## Main results

* `Query.stable_readExpressions`: reading a list of terms is stable
* `Query.completable_of_readExpressions`: a list of terms that ends too early can be completed
* `Query.token_eq_none_iff_of_parse`: an error blames no token exactly when the query can be
  completed, and an error that blames one remains whatever stands behind the query
-/

namespace DirectoryListing.Query

variable {level : Level} {tokens ts left : List Text} {e f : Expr} {err : Error}
  {next : Expr → List Text → Reading}

/-! ## Readings that stop at a token -/

/-- The reading stops at a token, which it blames or leaves, and not at the end of the query. -/
def Reading.Stops : Reading → Prop
  | .error err => err.token ≠ none
  | .ok (_, left) => left ≠ []

/-- The reading with more tokens left behind it. -/
def Reading.leaving (more : List Text) : Reading → Reading
  | .error err => .error err
  | .ok (e, left) => .ok (e, left ++ more)

/-- If the reading stops at one of these tokens, it stops there whatever stands behind them. -/
def Stable (read : List Text → Reading) (tokens : List Text) : Prop :=
  (read tokens).Stops → ∀ more, read (tokens ++ more) = (read tokens).leaving more

theorem stable_of_error (err : Error) {read : List Text → Reading}
    (h : ∀ more, read (tokens ++ more) = .error err) : Stable read tokens := by
  intro _ more
  have hr : read tokens = .error err := by simpa using h []
  rw [h more, hr]
  rfl

theorem stable_of_ok (e : Expr) (left : List Text) {read : List Text → Reading}
    (h : ∀ more, read (tokens ++ more) = .ok (e, left ++ more)) : Stable read tokens := by
  intro _ more
  have hr : read tokens = .ok (e, left) := by simpa using h []
  rw [h more, hr]
  rfl

/-- A reading that comes to the end of the query is stable for want of a token to stop at. -/
theorem stable_of_end {read : List Text → Reading} (h : read tokens = .ok (e, [])) :
    Stable read tokens := by
  intro hs
  rw [h] at hs
  exact absurd rfl hs

theorem Stable.congr {read read' : List Text → Reading} (h : Stable read' ts)
    (heq : ∀ more, read (tokens ++ more) = read' (ts ++ more)) : Stable read tokens := by
  intro hs more
  have hr : read tokens = read' ts := by simpa using heq []
  rw [hr] at hs ⊢
  rw [heq, h hs more]

/-- A reading that goes on is stable when both of its parts are, and the second stops at a token
only where it is given one. -/
theorem Stable.andThen {read : List Text → Reading} (hr : Stable read tokens)
    (hend : ∀ e, ¬ (next e []).Stops)
    (hnext : ∀ e left, read tokens = .ok (e, left) → Stable (next e) left) :
    Stable (fun ts => (read ts).andThen next) tokens := by
  intro hs more
  rcases hread : read tokens with err | ⟨e, left⟩
  · simp only [hread, Reading.andThen_error] at hs ⊢
    rw [hr (by rwa [hread]) more, hread]
    rfl
  · simp only [hread, Reading.andThen_ok] at hs ⊢
    have hleft : left ≠ [] := by
      rintro rfl
      exact hend e hs
    rw [hr (by rwa [hread]) more, hread]
    exact hnext e left hread hs more

theorem not_stops_end (e : Expr) : ¬ Reading.Stops (.ok (e, [])) := fun h => h rfl

section Levels

variable {n : Nat}

theorem stable_readArgument (first : Text) (ofArgument : Text → Except Error Expr)
    (rest : List Text) : Stable (readArgument first ofArgument) rest := by
  rcases rest with _ | ⟨argument, rest⟩
  · intro hs
    exact absurd rfl hs
  · cases ha : ofArgument argument with
    | error err => exact stable_of_error err fun more => by simp [readArgument, ha, Except.map]
    | ok e => exact stable_of_ok e rest fun more => by simp [readArgument, ha, Except.map]

variable (hp : ∀ tokens : List Text, tokens.length < n → ∀ e, Stable (readExpressions e) tokens)

include hp

theorem stable_readTest (first : Text) {rest : List Text} (hl : rest.length < n) :
    Stable (readTest first) rest := by
  by_cases hn : first = "-name".toList
  · subst hn
    exact funext readTest_name ▸ stable_readArgument _ _ rest
  by_cases hk : first = "-type".toList
  · subst hk
    exact funext readTest_kind ▸ stable_readArgument _ _ rest
  by_cases hs : first = "-size".toList
  · subst hs
    exact funext readTest_size ▸ stable_readArgument _ _ rest
  by_cases ho : first = ['(']
  · subst ho
    rw [funext readTest_open]
    refine (hp rest hl .always).andThen (fun e h => h rfl) fun e left _ => ?_
    -- what stands where the closing parenthesis belongs settles the test
    rcases left with _ | ⟨token, left⟩
    · exact fun h => absurd rfl h
    by_cases ht : token = [')']
    · exact stable_of_ok e left fun more => by simp [ht]
    · exact stable_of_error (.unclosed (some token)) fun more => by simp [ht]
  · exact stable_of_error (.unknownToken first) fun more => readTest_unknown hn hk hs ho (rest ++ more)

theorem stable_readNegation (hl : tokens.length ≤ n) : Stable readNegation tokens := by
  induction tokens with
  | nil =>
    intro hs
    rw [readNegation_nil] at hs
    exact absurd rfl hs
  | cons token rest ih =>
    rw [List.length_cons] at hl
    by_cases ht : token = ['!']
    · subst ht
      have hrest : Stable
          (fun ts => (readNegation ts).andThen fun e left => .ok (.not e, left)) rest :=
        (ih (by omega)).andThen (fun e => not_stops_end _) fun e left _ =>
          stable_of_ok (.not e) left fun more => rfl
      exact hrest.congr fun more => readNegation_not (rest ++ more)
    · exact (stable_readTest hp token hl).congr fun more => readNegation_cons ht (rest ++ more)

theorem stable_readConjuncts (hl : tokens.length ≤ n) (e : Expr) :
    Stable (readConjuncts e) tokens := by
  -- by the number of tokens, since every operand takes at least one
  induction hm : tokens.length using Nat.strongRecOn generalizing tokens e with
  | _ m ih =>
  subst hm
  have further : ∀ rest : List Text, rest.length ≤ tokens.length →
      Stable (fun ts => (readNegation ts).andThen fun term left =>
        readConjuncts (.and e term) left) rest := by
    intro rest hrest
    refine (stable_readNegation hp (Nat.le_trans hrest hl)).andThen (fun term => ?_)
      fun term left hr => ?_
    · rw [readConjuncts_nil]
      exact not_stops_end _
    · have hlt := length_lt_of_read .negation (by decide) hr
      exact ih left.length (by omega) (by omega) _ rfl
  rcases tokens with _ | ⟨token, rest⟩
  · exact stable_of_end (readConjuncts_nil e)
  · by_cases he : token = [')'] ∨ token = "-o".toList
    · exact stable_of_ok e (token :: rest) fun more => readConjuncts_end e he (rest ++ more)
    by_cases ha : token = "-a".toList
    · subst ha
      exact (further rest (Nat.le_succ _)).congr fun more => readConjuncts_and e (rest ++ more)
    · exact (further (token :: rest) (Nat.le_refl _)).congr fun more =>
        readConjuncts_cons e he ha (rest ++ more)

theorem stable_readConjunction (hl : tokens.length ≤ n) : Stable readConjunction tokens := by
  rw [funext readConjunction_eq]
  refine (stable_readNegation hp hl).andThen (fun e => ?_) fun e left hr => ?_
  · rw [readConjuncts_nil]
    exact not_stops_end e
  · have hlt := length_lt_of_read .negation (by decide) hr
    exact stable_readConjuncts hp (by omega) e

theorem stable_readDisjuncts (hl : tokens.length ≤ n) (e : Expr) :
    Stable (readDisjuncts e) tokens := by
  induction hm : tokens.length using Nat.strongRecOn generalizing tokens e with
  | _ m ih =>
  subst hm
  rcases tokens with _ | ⟨token, rest⟩
  · exact stable_of_end (readDisjuncts_nil e)
  · by_cases ho : token = "-o".toList
    · subst ho
      rw [List.length_cons] at hl ih
      have hrest : Stable (fun ts => (readConjunction ts).andThen fun term left =>
          readDisjuncts (.or e term) left) rest := by
        refine (stable_readConjunction hp (by omega)).andThen (fun term => ?_)
          fun term left hr => ?_
        · rw [readDisjuncts_nil]
          exact not_stops_end _
        · have hlt := length_lt_of_read .conjunction (by decide) hr
          exact ih left.length (by omega) (by omega) _ rfl
      exact hrest.congr fun more => readDisjuncts_or e (rest ++ more)
    · exact stable_of_ok e (token :: rest) fun more => readDisjuncts_cons e ho (rest ++ more)

theorem stable_readDisjunction (hl : tokens.length ≤ n) : Stable readDisjunction tokens := by
  rw [funext readDisjunction_eq]
  refine (stable_readConjunction hp hl).andThen (fun e => ?_) fun e left hr => ?_
  · rw [readDisjuncts_nil]
    exact not_stops_end e
  · have hlt := length_lt_of_read .conjunction (by decide) hr
    exact stable_readDisjuncts hp (by omega) e

theorem stable_readExpressions_of_le (hl : tokens.length ≤ n) (e : Expr) :
    Stable (readExpressions e) tokens := by
  rcases tokens with _ | ⟨token, rest⟩
  · exact stable_of_end (readExpressions_nil e)
  by_cases ht : token = [')']
  · subst ht
    exact stable_of_ok e ([')'] :: rest) fun more => readExpressions_close e (rest ++ more)
  · have hterm : Stable (fun ts => (readDisjunction ts).andThen fun term left =>
        readExpressions (juxtapose e term) left) (token :: rest) := by
      refine (stable_readDisjunction hp hl).andThen (fun term => ?_) fun term left hr => ?_
      · rw [readExpressions_nil]
        exact not_stops_end _
      · have hlt := length_lt_of_read .disjunction (by decide) hr
        exact hp left (by omega) _
    exact hterm.congr fun more => readExpressions_cons e ht (rest ++ more)

end Levels

/-- **Reading a list of terms is stable.** -/
theorem stable_readExpressions (tokens : List Text) (e : Expr) :
    Stable (readExpressions e) tokens := by
  induction hm : tokens.length using Nat.strongRecOn generalizing tokens e with
  | _ m ih =>
    exact stable_readExpressions_of_le (fun us hl e => ih us.length hl us e rfl)
      (Nat.le_of_eq hm) e

/-! ## Readings that end too early -/

/-- More tokens make these spell an expression at a level. -/
def Completable (level : Level) (tokens : List Text) : Prop :=
  ∃ more e, Spells false level (tokens ++ more) e

section Completion

variable {n : Nat}

/-- A test whose argument is missing is completed by one. -/
theorem completable_of_readArgument {first : Text} {ofArgument : Text → Except Error Expr}
    {rest : List Text} (hex : ∃ argument e, Spells false .test [first, argument] e)
    (hblame : ∀ argument err, ofArgument argument = .error err → err.token = some argument)
    (h : readArgument first ofArgument rest = .error err) (ht : err.token = none) :
    Completable .test (first :: rest) := by
  rcases rest with _ | ⟨argument, rest⟩
  · obtain ⟨argument, e, hs⟩ := hex
    exact ⟨[argument], e, hs⟩
  · rw [readArgument] at h
    cases ha : ofArgument argument with
    | error err' =>
      simp only [ha, Except.map, Except.error.injEq] at h
      rw [← h, hblame argument err' ha] at ht
      cases ht
    | ok e => simp [ha, Except.map] at h

variable (hp : ∀ {tokens : List Text} {err : Error}, tokens.length < n →
  readExpressions .always tokens = .error err → err.token = none → Completable .expressions tokens)

include hp

theorem completable_of_readTest {first : Text} {rest : List Text} (hl : rest.length < n)
    (h : readTest first rest = .error err) (ht : err.token = none) :
    Completable .test (first :: rest) := by
  by_cases hn : first = "-name".toList
  · subst hn
    rw [readTest_name] at h
    exact completable_of_readArgument ⟨['x'], _, .name ['x']⟩ (fun _ _ he => by cases he) h ht
  by_cases hk : first = "-type".toList
  · subst hk
    rw [readTest_kind] at h
    refine completable_of_readArgument ⟨_, _, .kind .file⟩ (fun argument err he => ?_) h ht
    split at he <;> cases he
    rfl
  by_cases hs : first = "-size".toList
  · subst hs
    rw [readTest_size] at h
    have hsize : Spells false .test ["-size".toList, ['0']] (.size .eq (Text.toNat ['0'])) :=
      .size .eq (by decide) (by decide)
    refine completable_of_readArgument ⟨_, _, hsize⟩ (fun argument err he => ?_) h ht
    split at he <;> cases he
    rfl
  by_cases ho : first = ['(']
  · subst ho
    rw [readTest_open, Reading.andThen_eq_error] at h
    rcases h with h | ⟨e, left, hr, h⟩
    · -- inside the parentheses: the closing one follows what completes their content
      obtain ⟨more, e, hs⟩ := hp hl h ht
      exact ⟨more ++ [[')']], e, by simpa using Spells.parentheses hs⟩
    · obtain ⟨used, rfl, hs, -⟩ := sound_readExpressions rest e left hr
      rcases left with _ | ⟨token, left⟩
      · exact ⟨[[')']], e, by simpa using Spells.parentheses hs⟩
      · simp only at h
        split at h <;> cases h
        cases ht
  · rw [readTest_unknown hn hk hs ho] at h
    cases h
    cases ht

theorem completable_of_readNegation (hl : tokens.length ≤ n)
    (h : readNegation tokens = .error err) (ht : err.token = none) :
    Completable .negation tokens := by
  induction tokens with
  | nil => exact ⟨_, _, .test (.name ['x'])⟩
  | cons token rest ih =>
    rw [List.length_cons] at hl
    by_cases hn : token = ['!']
    · subst hn
      rw [readNegation_not, Reading.andThen_eq_error] at h
      rcases h with h | ⟨_, _, -, h⟩
      · obtain ⟨more, e, hs⟩ := ih (by omega) h
        exact ⟨more, _, .not hs⟩
      · cases h
    · rw [readNegation_cons hn] at h
      obtain ⟨more, e, hs⟩ := completable_of_readTest hp hl h ht
      exact ⟨more, e, .test hs⟩

/-- Behind a conjunction, operands that end too early are completed. -/
theorem completable_of_readConjuncts (hs : Spells false .conjunction ts e) (hl : tokens.length ≤ n)
    (h : readConjuncts e tokens = .error err) (ht : err.token = none) :
    Completable .conjunction (ts ++ tokens) := by
  -- by the number of tokens, as each operand that is read makes the conjunction longer
  induction hm : tokens.length using Nat.strongRecOn generalizing tokens ts e with
  | _ m ih =>
  subst hm
  have further : ∀ before {rest : List Text}, tokens = before ++ rest →
      (∀ us g, Spells false .negation us g →
        Spells false .conjunction (ts ++ before ++ us) (.and e g)) →
      ((readNegation rest).andThen fun term left => readConjuncts (.and e term) left) =
        .error err →
      Completable .conjunction (ts ++ tokens) := by
    rintro before rest rfl hjoin hrest
    rw [List.length_append] at hl ih
    rcases Reading.andThen_eq_error.mp hrest with hn | ⟨g, left, hn, hlater⟩
    · obtain ⟨more, g, hg⟩ := completable_of_readNegation hp (by omega) hn ht
      exact ⟨more, _, by simpa using hjoin _ g hg⟩
    · have hlt := length_lt_of_read .negation (by decide) hn
      obtain ⟨used, rfl, hg, -⟩ := sound_read .negation rest g left hn
      simpa using ih left.length (by omega) (hjoin used g hg) (by omega) hlater rfl
  rcases tokens with _ | ⟨token, rest⟩
  · rw [readConjuncts_nil] at h
    cases h
  · by_cases he : token = [')'] ∨ token = "-o".toList
    · rw [readConjuncts_end e he] at h
      cases h
    by_cases ha : token = "-a".toList
    · subst ha
      rw [readConjuncts_and] at h
      exact further ["-a".toList] rfl (fun us g hg => by simpa using Spells.and hs hg) h
    · rw [readConjuncts_cons e he ha] at h
      exact further [] rfl (fun us g hg => by simpa using Spells.beside hs hg) h

theorem completable_of_readConjunction (hl : tokens.length ≤ n)
    (h : readConjunction tokens = .error err) (ht : err.token = none) :
    Completable .conjunction tokens := by
  rw [readConjunction_eq, Reading.andThen_eq_error] at h
  rcases h with h | ⟨e, left, hr, h⟩
  · obtain ⟨more, e, hs⟩ := completable_of_readNegation hp hl h ht
    exact ⟨more, e, .conjunct hs⟩
  · have hlt := length_lt_of_read .negation (by decide) hr
    obtain ⟨used, rfl, hs, -⟩ := sound_read .negation tokens e left hr
    exact completable_of_readConjuncts hp (.conjunct hs) (by omega) h ht

/-- Behind a disjunction, operands that end too early are completed. -/
theorem completable_of_readDisjuncts (hs : Spells false .disjunction ts e) (hl : tokens.length ≤ n)
    (h : readDisjuncts e tokens = .error err) (ht : err.token = none) :
    Completable .disjunction (ts ++ tokens) := by
  induction hm : tokens.length using Nat.strongRecOn generalizing tokens ts e with
  | _ m ih =>
  subst hm
  rcases tokens with _ | ⟨token, rest⟩
  · rw [readDisjuncts_nil] at h
    cases h
  · by_cases ho : token = "-o".toList
    · subst ho
      rw [List.length_cons] at hl ih
      rw [readDisjuncts_or, Reading.andThen_eq_error] at h
      rcases h with h | ⟨g, left, hr, h⟩
      · obtain ⟨more, g, hg⟩ := completable_of_readConjunction hp (by omega) h ht
        exact ⟨more, _, by simpa using Spells.or hs hg⟩
      · have hlt := length_lt_of_read .conjunction (by decide) hr
        obtain ⟨used, rfl, hg, -⟩ := sound_read .conjunction rest g left hr
        simpa using ih left.length (by omega) (.or hs hg) (by omega) h rfl
    · rw [readDisjuncts_cons e ho] at h
      cases h

theorem completable_of_readDisjunction (hl : tokens.length ≤ n)
    (h : readDisjunction tokens = .error err) (ht : err.token = none) :
    Completable .disjunction tokens := by
  rw [readDisjunction_eq, Reading.andThen_eq_error] at h
  rcases h with h | ⟨e, left, hr, h⟩
  · obtain ⟨more, e, hs⟩ := completable_of_readConjunction hp hl h ht
    exact ⟨more, e, .disjunct hs⟩
  · have hlt := length_lt_of_read .conjunction (by decide) hr
    obtain ⟨used, rfl, hs, -⟩ := sound_read .conjunction tokens e left hr
    exact completable_of_readDisjuncts hp (.disjunct hs) (by omega) h ht

theorem completable_of_readExpressions_of_le (hl : tokens.length ≤ n)
    (h : readExpressions .always tokens = .error err) (ht : err.token = none) :
    Completable .expressions tokens := by
  rcases tokens with _ | ⟨token, rest⟩
  · rw [readExpressions_nil] at h
    cases h
  by_cases hc : token = [')']
  · subst hc
    rw [readExpressions_close] at h
    cases h
  · rw [readExpressions_cons _ hc, Reading.andThen_eq_error] at h
    rcases h with h | ⟨e, left, hr, h⟩
    · obtain ⟨more, e, hs⟩ := completable_of_readDisjunction hp hl h ht
      exact ⟨more, e, .term hs⟩
    · -- a disjunction goes on to where the list of terms ends, so nothing is read behind it
      obtain ⟨-, -, -, hend⟩ := sound_read .disjunction _ e left hr
      rw [readExpressions_of_ends hend] at h
      cases h

end Completion

/-- **A list of terms that ends too early can be completed.** -/
theorem completable_of_readExpressions (h : readExpressions .always tokens = .error err)
    (ht : err.token = none) : Completable .expressions tokens := by
  induction hm : tokens.length using Nat.strongRecOn generalizing tokens err with
  | _ m ih =>
    exact completable_of_readExpressions_of_le (fun hl h ht => ih _ hl h ht rfl)
      (Nat.le_of_eq hm) h ht

/-! ## Whole queries -/

/-- A query that is rejected for no token of its own can be completed. -/
theorem exists_parse_append_of_token_eq_none (h : parse tokens = .error err)
    (ht : err.token = none) : ∃ more e, parse (tokens ++ more) = .ok e := by
  rw [parse_eq] at h
  rcases hr : readExpressions .always tokens with err' | ⟨e, left⟩
  · rw [hr] at h
    cases h
    obtain ⟨more, e, hs⟩ := completable_of_readExpressions hr ht
    exact ⟨more, e, parse_eq_ok_iff.mpr hs⟩
  · rcases left with _ | ⟨token, left⟩ <;> rw [hr] at h <;> cases h
    cases ht

/-- A query that is rejected for a token is rejected for it whatever stands behind. -/
theorem parse_append_of_token_ne_none (h : parse tokens = .error err) (ht : err.token ≠ none)
    (more : List Text) : parse (tokens ++ more) = .error err := by
  have hstable := stable_readExpressions tokens .always
  rw [parse_eq] at h ⊢
  rcases hr : readExpressions .always tokens with err' | ⟨e, left⟩
  · rw [hr] at h
    cases h
    rw [Stable, hr] at hstable
    rw [hstable ht more]
    rfl
  · rcases left with _ | ⟨token, left⟩ <;> rw [hr] at h <;> cases h
    rw [Stable, hr] at hstable
    rw [hstable (List.cons_ne_nil _ _) more]
    rfl

/-- **Errors tell incomplete queries from wrong ones.** The error of a query blames no token exactly
when more tokens behind it make it a query. A token that it blames is one of the query's, and then
the query has this same error whatever stands behind. -/
theorem token_eq_none_iff_of_parse (h : parse tokens = .error err) :
    (err.token = none ↔ ∃ more e, parse (tokens ++ more) = .ok e) ∧
    ∀ t, err.token = some t → t ∈ tokens ∧ ∀ more, parse (tokens ++ more) = .error err := by
  have remains : err.token ≠ none → ∀ more, parse (tokens ++ more) = .error err :=
    parse_append_of_token_ne_none h
  refine ⟨⟨exists_parse_append_of_token_eq_none h, ?_⟩, fun t ht => ⟨token_mem_of_parse h ht, ?_⟩⟩
  · rintro ⟨more, e, hok⟩
    refine Classical.byContradiction fun ht => ?_
    rw [remains ht more] at hok
    cases hok
  · exact remains (by simp [ht])

/-- A test without its argument inside of parentheses can be completed; a kind that is neither file
nor directory cannot be repaired. -/
theorem token_eq_none_iff_of_parse_parentheses :
    (∃ more e, parse ([['('], "-name".toList] ++ more) = .ok e) ∧
    ∀ more, parse ([['('], "-type".toList, ['x']] ++ more) = .error (.badKind ['x']) := by
  have missing : parse [['('], "-name".toList] = .error (.missingArgument "-name".toList) := by
    simp (disch := decide) only [parse_eq, readExpressions_cons, readDisjunction_eq,
      readConjunction_eq, readNegation_cons, readTest_open, readTest_name, readArgument,
      Reading.andThen_error]
  have wrong : parse [['('], "-type".toList, ['x']] = .error (.badKind ['x']) := by
    have hx : Kind.ofLetter? ['x'] = none := by decide
    simp (disch := decide) only [parse_eq, readExpressions_cons, readDisjunction_eq,
      readConjunction_eq, readNegation_cons, readTest_open, readTest_kind, readArgument, hx,
      Reading.andThen_error, Except.map]
  constructor
  · exact (token_eq_none_iff_of_parse missing).1.mp rfl
  · exact ((token_eq_none_iff_of_parse wrong).2 ['x'] rfl).2

end DirectoryListing.Query
