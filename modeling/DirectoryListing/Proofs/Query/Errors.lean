import DirectoryListing.Proofs.Query.Grammar
import DirectoryListing.Proofs.Text.Lines

/-!
# What the errors of a query blame

The text of an error quotes at most the token that the error blames, and this token is one of the
query's. An argument is missed behind one of three tokens only, and what stands where a closing
parenthesis belongs is always the end of the query. Like the grammar, this is settled level by
level.

## Main definitions

* `Query.Error.IsOf tokens e`: the error is one that these tokens can have
* `Query.Blames tokens r`: if the reading is in error, the error is one of these tokens

## Main results

* `Query.blames_read`: the error of a reading is one of its tokens
* `Query.isOf_of_parse`: the error of a query is one of its tokens
* `Query.mem_message_iff`: it quotes the token that it blames, and no other
* `Query.isPure_of_parse`: what is read has no foreign parts
-/

namespace DirectoryListing.Query

/-! ## Errors of some tokens -/

/-- The tokens that an argument follows. -/
def testNames : List Text := ["-name".toList, "-type".toList, "-size".toList]

theorem not_mem_of_mem_testNames : ∀ test ∈ testNames, '\n' ∉ test := by
  decide

/-- The error is one that these tokens can have. -/
def Error.IsOf (tokens : List Text) : Error → Prop
  | unexpectedEnd => True
  | unknownToken t | badKind t | badSize t => t ∈ tokens
  | missingArgument test => test ∈ testNames
  | unclosed found => found = none
  | unopened t => t = [')'] ∧ t ∈ tokens

/-- If the reading is in error, the error is one that these tokens can have. -/
def Blames (tokens : List Text) (r : Reading) : Prop :=
  ∀ err, r = .error err → err.IsOf tokens

variable {ts us tokens left : List Text} {r : Reading} {err : Error} {e : Expr} {level : Level}

theorem Error.IsOf.mono (h : err.IsOf ts) (hsub : ∀ t ∈ ts, t ∈ us) : err.IsOf us := by
  cases err with
  | unexpectedEnd => trivial
  | unknownToken t | badKind t | badSize t => exact hsub t h
  | missingArgument test => exact h
  | unclosed found => exact h
  | unopened t => exact h.imp_right (hsub t)

theorem Blames.mono (h : Blames ts r) (hsub : ∀ t ∈ ts, t ∈ us) : Blames us r :=
  fun err he => (h err he).mono hsub

theorem blames_ok (x : Expr × List Text) : Blames ts (.ok x) := nofun

/-- A reading that goes on is in error where it starts, or where it goes on. -/
theorem Blames.andThen {next : Expr → List Text → Reading} (hr : Blames ts r)
    (hn : ∀ e left, r = .ok (e, left) → Blames ts (next e left)) : Blames ts (r.andThen next) := by
  rcases r with err | ⟨e, left⟩
  · exact hr
  · exact hn e left rfl

/-- What a reading leaves is a part of its tokens. -/
theorem mem_of_mem_left (level : Level) (h : level.read tokens = .ok (e, left)) :
    ∀ t ∈ left, t ∈ tokens := by
  obtain ⟨used, rfl, -⟩ := sound_read level tokens e left h
  exact fun t => List.mem_append_right used

/-! ## Level by level -/

section Levels

variable {n : Nat}

theorem blames_readArgument {first : Text} (hfirst : first ∈ testNames)
    {ofArgument : Text → Except Error Expr}
    (h : ∀ argument err, ofArgument argument = .error err → err.IsOf [argument])
    (rest : List Text) : Blames (first :: rest) (readArgument first ofArgument rest) := by
  intro err he
  rcases rest with _ | ⟨argument, rest⟩
  · cases he
    exact hfirst
  · rw [readArgument] at he
    cases ha : ofArgument argument with
    | ok e => simp [ha, Except.map] at he
    | error err' =>
      simp only [ha, Except.map, Except.error.injEq] at he
      subst he
      exact (h argument err' ha).mono (by simp)

variable (hp : ∀ tokens : List Text, tokens.length < n →
  ∀ e, Blames tokens (readExpressions e tokens))

include hp

theorem blames_readTest (first : Text) {rest : List Text} (hl : rest.length < n) :
    Blames (first :: rest) (readTest first rest) := by
  by_cases hn : first = "-name".toList
  · subst hn
    rw [readTest_name]
    refine blames_readArgument (by decide) (fun argument err he => ?_) rest
    cases he
  by_cases hk : first = "-type".toList
  · subst hk
    rw [readTest_kind]
    refine blames_readArgument (by decide) (fun argument err he => ?_) rest
    split at he <;> cases he
    exact List.mem_singleton_self argument
  by_cases hs : first = "-size".toList
  · subst hs
    rw [readTest_size]
    refine blames_readArgument (by decide) (fun argument err he => ?_) rest
    split at he <;> cases he
    exact List.mem_singleton_self argument
  by_cases ho : first = ['(']
  · subst ho
    rw [readTest_open]
    refine ((hp rest hl .always).mono fun t => List.mem_cons_of_mem _).andThen fun e left hr => ?_
    obtain ⟨used, -, -, hend⟩ := sound_readExpressions rest e left hr
    intro err he
    rcases left with _ | ⟨token, left⟩
    · cases he
      rfl
    · -- a list of terms goes on up to a closing parenthesis
      have ht : token = [')'] := by simpa [Level.Ends, Level.stops] using hend
      simp [ht] at he
  · rw [readTest_unknown hn hk hs ho]
    intro err he
    cases he
    exact List.mem_cons_self

theorem blames_readNegation (hl : tokens.length ≤ n) : Blames tokens (readNegation tokens) := by
  induction tokens with
  | nil =>
    intro err he
    rw [readNegation_nil] at he
    cases he
    trivial
  | cons token rest ih =>
    rw [List.length_cons] at hl
    by_cases ht : token = ['!']
    · subst ht
      rw [readNegation_not]
      exact ((ih (by omega)).mono fun t => List.mem_cons_of_mem _).andThen
        fun e left _ => blames_ok _
    · rw [readNegation_cons ht]
      exact blames_readTest hp token hl

theorem blames_readConjuncts (hl : tokens.length ≤ n) (e : Expr) :
    Blames tokens (readConjuncts e tokens) := by
  -- by the number of tokens, since every operand takes at least one
  induction hm : tokens.length using Nat.strongRecOn generalizing tokens e with
  | _ m ih =>
  subst hm
  have further : ∀ rest : List Text, rest.length ≤ tokens.length → (∀ t ∈ rest, t ∈ tokens) →
      Blames tokens ((readNegation rest).andThen fun term left =>
        readConjuncts (.and e term) left) := by
    intro rest hrest hsub
    refine ((blames_readNegation hp (Nat.le_trans hrest hl)).mono hsub).andThen
      fun term left hr => ?_
    have hlt := length_lt_of_read .negation (by decide) hr
    exact (ih left.length (by omega) (by omega) _ rfl).mono fun t ht =>
      hsub t (mem_of_mem_left .negation hr t ht)
  rcases tokens with _ | ⟨token, rest⟩
  · rw [readConjuncts_nil]
    exact blames_ok _
  · by_cases he : token = [')'] ∨ token = "-o".toList
    · rw [readConjuncts_end e he]
      exact blames_ok _
    by_cases ha : token = "-a".toList
    · subst ha
      rw [readConjuncts_and]
      exact further rest (Nat.le_succ _) fun t => List.mem_cons_of_mem _
    · rw [readConjuncts_cons e he ha]
      exact further (token :: rest) (Nat.le_refl _) fun t => id

theorem blames_readConjunction (hl : tokens.length ≤ n) :
    Blames tokens (readConjunction tokens) := by
  rw [readConjunction_eq]
  refine (blames_readNegation hp hl).andThen fun e left hr => ?_
  have hlt := length_lt_of_read .negation (by decide) hr
  exact (blames_readConjuncts hp (by omega) e).mono (mem_of_mem_left .negation hr)

theorem blames_readDisjuncts (hl : tokens.length ≤ n) (e : Expr) :
    Blames tokens (readDisjuncts e tokens) := by
  induction hm : tokens.length using Nat.strongRecOn generalizing tokens e with
  | _ m ih =>
  subst hm
  rcases tokens with _ | ⟨token, rest⟩
  · rw [readDisjuncts_nil]
    exact blames_ok _
  · by_cases ho : token = "-o".toList
    · subst ho
      rw [List.length_cons] at hl ih
      rw [readDisjuncts_or]
      have hsub : ∀ t ∈ rest, t ∈ "-o".toList :: rest := fun t => List.mem_cons_of_mem _
      refine ((blames_readConjunction hp (by omega)).mono hsub).andThen fun term left hr => ?_
      have hlt := length_lt_of_read .conjunction (by decide) hr
      exact (ih left.length (by omega) (by omega) _ rfl).mono fun t ht =>
        hsub t (mem_of_mem_left .conjunction hr t ht)
    · rw [readDisjuncts_cons e ho]
      exact blames_ok _

theorem blames_readDisjunction (hl : tokens.length ≤ n) :
    Blames tokens (readDisjunction tokens) := by
  rw [readDisjunction_eq]
  refine (blames_readConjunction hp hl).andThen fun e left hr => ?_
  have hlt := length_lt_of_read .conjunction (by decide) hr
  exact (blames_readDisjuncts hp (by omega) e).mono (mem_of_mem_left .conjunction hr)

theorem blames_readExpressions_of_le (hl : tokens.length ≤ n) (e : Expr) :
    Blames tokens (readExpressions e tokens) := by
  rcases tokens with _ | ⟨token, rest⟩
  · rw [readExpressions_nil]
    exact blames_ok _
  by_cases ht : token = [')']
  · subst ht
    rw [readExpressions_close]
    exact blames_ok _
  · rw [readExpressions_cons e ht]
    refine (blames_readDisjunction hp hl).andThen fun term left hr => ?_
    have hlt := length_lt_of_read .disjunction (by decide) hr
    exact (hp left (by omega) _).mono (mem_of_mem_left .disjunction hr)

end Levels

theorem blames_readExpressions (tokens : List Text) (e : Expr) :
    Blames tokens (readExpressions e tokens) := by
  induction hm : tokens.length using Nat.strongRecOn generalizing tokens e with
  | _ m ih =>
    exact blames_readExpressions_of_le (fun us hl e => ih us.length hl us e rfl)
      (Nat.le_of_eq hm) e

/-- **The error of a reading**, at every level, is one that its tokens can have. -/
theorem blames_read (level : Level) (tokens : List Text) : Blames tokens (level.read tokens) := by
  have hp : ∀ us : List Text, us.length < tokens.length →
      ∀ e, Blames us (readExpressions e us) := fun us _ => blames_readExpressions us
  cases level with
  | expressions => exact blames_readExpressions tokens .always
  | disjunction => exact blames_readDisjunction hp (Nat.le_refl _)
  | conjunction => exact blames_readConjunction hp (Nat.le_refl _)
  | negation => exact blames_readNegation hp (Nat.le_refl _)
  | test =>
    rcases tokens with _ | ⟨first, rest⟩
    · intro err h
      cases h
      trivial
    · exact blames_readTest hp first (Nat.lt_succ_self _)

/-! ## Whole queries -/

/-- **The error of a query** is one that its tokens can have. -/
theorem isOf_of_parse (h : parse tokens = .error err) : err.IsOf tokens := by
  rw [parse_eq] at h
  cases hr : readExpressions .always tokens with
  | error err' =>
    rw [hr] at h
    cases h
    exact blames_readExpressions tokens .always err hr
  | ok x =>
    obtain ⟨e, left⟩ := x
    rw [hr] at h
    rcases left with _ | ⟨token, left⟩
    · cases h
    · cases h
      obtain ⟨used, rfl, -, hend⟩ := sound_readExpressions tokens e (token :: left) hr
      exact ⟨by simpa [Level.Ends, Level.stops] using hend, by simp⟩

theorem token_mem_of_parse {t : Text} (h : parse tokens = .error err) (ht : err.token = some t) :
    t ∈ tokens := by
  have hof := isOf_of_parse h
  cases err <;> cases ht <;> first | exact hof | exact hof.2 | cases hof

/-- **The text of an error** holds a line feed exactly when the token does that the error blames. -/
theorem mem_message_iff (h : parse tokens = .error err) :
    '\n' ∈ err.message ↔ ∃ t, err.token = some t ∧ '\n' ∈ t := by
  have hof := isOf_of_parse h
  have blamed : ∀ t : Text, '\n' ∈ t ↔ ∃ u, some t = some u ∧ '\n' ∈ u := by simp
  have none_blamed : ∀ {m : Text}, '\n' ∉ m →
      ('\n' ∈ m ↔ ∃ u, (none : Option Text) = some u ∧ '\n' ∈ u) := by
    intro m hm
    simp [hm]
  cases err with
  | unexpectedEnd => exact none_blamed (m := "unexpected end of expression".toList) (by decide)
  | unknownToken t =>
    exact (Text.mem_append_iff (s := "unknown expression - ".toList) (by decide)).trans (blamed t)
  | badKind t =>
    exact (Text.mem_append_iff (s := "invalid argument for -type - ".toList)
      (by decide)).trans (blamed t)
  | badSize t =>
    exact (Text.mem_append_iff (s := "invalid argument for -size - ".toList)
      (by decide)).trans (blamed t)
  | missingArgument test =>
    refine none_blamed (m := "missing argument to ".toList ++ test) ?_
    rw [Text.mem_append_iff (by decide)]
    exact not_mem_of_mem_testNames test hof
  | unclosed found =>
    cases hof
    exact none_blamed (m := "unbalanced parentheses - missing )".toList) (by decide)
  | unopened t =>
    exact (Text.mem_append_iff (s := "unbalanced parentheses - unexpected ".toList)
      (by decide)).trans (blamed t)

/-- What tokens spell has no foreign parts. -/
theorem isPure_of_spells {adjacent : Bool} (h : Spells adjacent level ts e) : e.isPure = true := by
  induction h with
  | nothing | name | kind | size => rfl
  | term _ ih | disjunct _ ih | conjunct _ ih | test _ ih | not _ ih | parentheses _ ih => exact ih
  | or _ _ ihe ihf | and _ _ ihe ihf | beside _ _ ihe ihf =>
    rw [Expr.isPure, ihe, ihf]
    rfl
  | @adjoin ts us e f _ _ _ ihe ihf =>
    unfold juxtapose
    split
    · exact ihf
    · rw [Expr.isPure, ihe, ihf]
      rfl

theorem isPure_of_parse (h : parse tokens = .ok e) : e.isPure = true :=
  isPure_of_spells (parse_eq_ok_iff.mp h)

end DirectoryListing.Query
