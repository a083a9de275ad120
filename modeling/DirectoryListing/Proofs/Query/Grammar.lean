import DirectoryListing.Proofs.Query.Reading

/-!
# The grammar of queries

A list of tokens spells an expression when the grammar derives it. The relation `Spells` states the
grammar on its own terms, with the operators of one level associating to the left; reading a query
is then shown to be deciding this relation, in both directions and level by level.

## The two grammars

Terms that stand next to each other could be joined in two ways: by the conjunction below them, or
by the list of terms above them. Reading takes the first way always. `Spells false` derives only
that one, and `Spells true` both; the same token lists spell something in either.

## Main definitions

* `Query.Spells adjacent level tokens e`: the tokens spell `e` at a level of the grammar
* `Query.Level.read`, `Query.Level.resume`: reading at a level, and reading on at it
* `Query.Level.Ends`: what a reading at a level leaves

## Main results

* `Query.read_append`: what spells an expression is read as it, whatever follows
* `Query.sound_read`: what is read spells what it is read as
* `Query.exists_spells_iff`: both grammars accept the same token lists
* `Query.parse_eq_ok_iff_spells`: queries are read exactly as the grammar says
-/

namespace DirectoryListing.Query

/-! ## Arguments -/

theorem ofLetter?_eq_some {t : Text} {k : Kind} : Kind.ofLetter? t = some k ↔ t = [k.letter] := by
  cases k <;> simp only [Kind.ofLetter?, Kind.letter] <;> split <;> simp_all

/-- A size test is spelled by its sign and at least one digit. -/
theorem sizeTest?_eq_some {argument : Text} {e : Expr} :
    sizeTest? argument = some e ↔ ∃ side digits, argument = Expr.sizeSign side ++ digits ∧
      digits ≠ [] ∧ digits.all Text.isDigit = true ∧ e = .size side (Text.toNat digits) := by
  constructor
  · intro h
    unfold sizeTest? at h
    split at h
    next side digits hs =>
      split at h
      · next hd =>
        simp only [Bool.and_eq_true, Bool.not_eq_true', List.isEmpty_eq_false_iff] at hd
        refine ⟨side, digits, ?_, hd.1, hd.2, (Option.some.inj h).symm⟩
        split at hs <;> cases hs <;> rfl
      · cases h
  · rintro ⟨side, digits, rfl, hne, hd, rfl⟩
    obtain ⟨c, rest, rfl⟩ := List.exists_cons_of_ne_nil hne
    have hc : Text.isDigit c = true := by simp_all
    cases side
    · simp [sizeTest?, Expr.sizeSign, hd]
    · have hp : c ≠ '+' := by rintro rfl; exact absurd hc (by decide)
      have hm : c ≠ '-' := by rintro rfl; exact absurd hc (by decide)
      unfold sizeTest?
      split
      next side digits hs =>
        split at hs
        · next h => exact absurd (List.cons.inj h).1 hp
        · next h => exact absurd (List.cons.inj h).1 hm
        · cases hs
          simp [Expr.sizeSign, hd]
    · simp [sizeTest?, Expr.sizeSign, hd]

/-! ## The grammar -/

/-- The levels of the grammar, from the loosest binding to the tightest. -/
inductive Level where
  | expressions
  | disjunction
  | conjunction
  | negation
  | test
  deriving DecidableEq, Repr

/-- The tokens spell the expression at a level of the grammar. With `adjacent`, terms may also stand
next to each other in a list of expressions; without, they are operands of one conjunction. -/
inductive Spells (adjacent : Bool) : Level → List Text → Expr → Prop
  | nothing : Spells adjacent .expressions [] .always
  | term {ts : List Text} {e : Expr} :
    Spells adjacent .disjunction ts e → Spells adjacent .expressions ts e
  | adjoin {ts us : List Text} {e f : Expr} : adjacent = true →
    Spells adjacent .expressions ts e → Spells adjacent .disjunction us f →
      Spells adjacent .expressions (ts ++ us) (juxtapose e f)
  | disjunct {ts : List Text} {e : Expr} :
    Spells adjacent .conjunction ts e → Spells adjacent .disjunction ts e
  | or {ts us : List Text} {e f : Expr} :
    Spells adjacent .disjunction ts e → Spells adjacent .conjunction us f →
      Spells adjacent .disjunction (ts ++ "-o".toList :: us) (.or e f)
  | conjunct {ts : List Text} {e : Expr} :
    Spells adjacent .negation ts e → Spells adjacent .conjunction ts e
  | and {ts us : List Text} {e f : Expr} :
    Spells adjacent .conjunction ts e → Spells adjacent .negation us f →
      Spells adjacent .conjunction (ts ++ "-a".toList :: us) (.and e f)
  | beside {ts us : List Text} {e f : Expr} :
    Spells adjacent .conjunction ts e → Spells adjacent .negation us f →
      Spells adjacent .conjunction (ts ++ us) (.and e f)
  | test {ts : List Text} {e : Expr} :
    Spells adjacent .test ts e → Spells adjacent .negation ts e
  | not {ts : List Text} {e : Expr} :
    Spells adjacent .negation ts e → Spells adjacent .negation (['!'] :: ts) (.not e)
  | name (pattern : Text) : Spells adjacent .test ["-name".toList, pattern] (.name pattern)
  | kind (k : Kind) : Spells adjacent .test ["-type".toList, [k.letter]] (.kind k)
  | size (side : Ordering) {digits : Text} : digits ≠ [] → digits.all Text.isDigit = true →
    Spells adjacent .test ["-size".toList, Expr.sizeSign side ++ digits]
      (.size side (Text.toNat digits))
  | parentheses {ts : List Text} {e : Expr} :
    Spells adjacent .expressions ts e → Spells adjacent .test (['('] :: (ts ++ [[')']])) e

/-- The tokens that an operand starts with. -/
def operandStarts : List Text :=
  [['!'], ['('], "-name".toList, "-type".toList, "-size".toList]

variable {adjacent : Bool} {level : Level} {ts us : List Text} {e f : Expr}

/-- Below the list of terms, what spells something starts as an operand does. -/
theorem Spells.head_mem (h : Spells adjacent level ts e) (hl : level ≠ .expressions) :
    ∃ token rest, ts = token :: rest ∧ token ∈ operandStarts := by
  induction h with
  | nothing => exact absurd rfl hl
  | term => exact absurd rfl hl
  | adjoin => exact absurd rfl hl
  | disjunct _ ih => exact ih (by decide)
  | conjunct _ ih => exact ih (by decide)
  | test _ ih => exact ih (by decide)
  | or _ _ ih | and _ _ ih | beside _ _ ih =>
    obtain ⟨token, rest, rfl, hm⟩ := ih (by decide)
    exact ⟨token, _, rfl, hm⟩
  | not => exact ⟨_, _, rfl, by decide⟩
  | name => exact ⟨_, _, rfl, by decide⟩
  | kind => exact ⟨_, _, rfl, by decide⟩
  | size => exact ⟨_, _, rfl, by decide⟩
  | parentheses => exact ⟨_, _, rfl, by decide⟩

/-! ## Reading at a level -/

/-- Reading at a level. -/
def Level.read : Level → List Text → Reading
  | expressions => readExpressions .always
  | disjunction => readDisjunction
  | conjunction => readConjunction
  | negation => readNegation
  | test => fun
    | [] => .error .unexpectedEnd
    | first :: rest => readTest first rest

/-- Reading on at a level, behind an expression of that level. -/
def Level.resume : Level → Expr → List Text → Reading
  | disjunction, e, left => readDisjuncts e left
  | conjunction, e, left => readConjuncts e left
  | _, e, left => .ok (e, left)

/-- The tokens that end a reading at a level, where it has not come to the end of the query. -/
def Level.stops : Level → List Text
  | expressions | disjunction => [[')']]
  | conjunction => [[')'], "-o".toList]
  | negation | test => []

/-- What a reading at a level leaves: nothing, or tokens of which the first ends it. A negation or
a test ends by itself. -/
def Level.Ends (level : Level) (left : List Text) : Prop :=
  level = .negation ∨ level = .test ∨ ∀ token ∈ left.head?, token ∈ level.stops

/-- What has to stand behind the operands of a level so that the last of them ends there. The
operands of a conjunction end by themselves. -/
def Level.Bounded : Level → List Text → Prop
  | expressions, left => expressions.Ends left
  | disjunction, left => conjunction.Ends left
  | _, _ => True

theorem resume_of_ends {left : List Text} (h : level.Ends left) (e : Expr) :
    level.resume e left = .ok (e, left) := by
  cases level with
  | disjunction =>
    rcases left with _ | ⟨token, left⟩
    · exact readDisjuncts_nil e
    · obtain rfl : token = [')'] := by simpa [Level.Ends, Level.stops] using h
      exact readDisjuncts_cons e (by decide) left
  | conjunction =>
    rcases left with _ | ⟨token, left⟩
    · exact readConjuncts_nil e
    · exact readConjuncts_end e (by simpa [Level.Ends, Level.stops] using h) left
  | _ => rfl

/-- Where a disjunction ends, so does the list of terms. -/
theorem readExpressions_of_ends {left : List Text} (h : Level.disjunction.Ends left) :
    readExpressions e left = .ok (e, left) := by
  rcases left with _ | ⟨token, left⟩
  · exact readExpressions_nil e
  · obtain rfl : token = [')'] := by simpa [Level.Ends, Level.stops] using h
    exact readExpressions_close e left

/-! ## What spells an expression is read as it -/

/-- An operand right behind a conjunction is read as the next of its operands, without any `-a`. -/
theorem readConjuncts_beside (h : Spells adjacent .negation us f) (left : List Text) :
    readConjuncts e (us ++ left) =
      (readNegation (us ++ left)).andThen fun term left => readConjuncts (.and e term) left := by
  obtain ⟨token, rest, rfl, hm⟩ := h.head_mem (by decide)
  simp only [operandStarts, List.mem_cons, List.not_mem_nil, or_false] at hm
  apply readConjuncts_cons <;> rcases hm with rfl | rfl | rfl | rfl | rfl <;> decide

/-- **What spells an expression is read as it**, and the level reads on behind it. -/
theorem read_append (h : Spells false level ts e) :
    ∀ left, level.Bounded left → level.read (ts ++ left) = level.resume e left := by
  -- by the derivation: an operand that is read leaves the next operator in front
  induction h with
  | nothing =>
    intro left hl
    rcases left with _ | ⟨token, left⟩
    · exact readExpressions_nil _
    · obtain rfl : token = [')'] := by simpa [Level.Bounded, Level.Ends, Level.stops] using hl
      exact readExpressions_close _ left
  | @term ts e hs ih =>
    intro left hl
    have hd : Level.disjunction.Ends left := by simpa [Level.Bounded, Level.Ends, Level.stops] using hl
    have hc : Level.conjunction.Ends left := by
      rcases left with _ | ⟨token, left⟩ <;> simp_all [Level.Ends, Level.stops]
    have hr : readDisjunction (ts ++ left) = .ok (e, left) :=
      (ih left hc).trans (resume_of_ends hd e)
    -- a term starts with no closing parenthesis, so the list is not over before it
    obtain ⟨token, rest, rfl, hm⟩ := hs.head_mem (by decide)
    have ht : token ≠ [')'] := by rintro rfl; exact absurd hm (by decide)
    change readExpressions .always (token :: (rest ++ left)) = _
    rw [readExpressions_cons _ ht, ← List.cons_append, hr, Reading.andThen_ok]
    exact readExpressions_of_ends hd
  | adjoin h => cases h
  | @disjunct ts e _ ih =>
    intro left hl
    change readDisjunction (ts ++ left) = readDisjuncts e left
    have hr : readConjunction (ts ++ left) = .ok (e, left) :=
      (ih left trivial).trans (resume_of_ends hl e)
    rw [readDisjunction_eq, hr, Reading.andThen_ok]
  | @or ts us e f _ _ ihe ihf =>
    intro left hl
    have hr : readConjunction (us ++ left) = .ok (f, left) :=
      (ihf left trivial).trans (resume_of_ends hl f)
    calc readDisjunction ((ts ++ "-o".toList :: us) ++ left)
        = readDisjunction (ts ++ "-o".toList :: (us ++ left)) := by simp
      _ = readDisjuncts e ("-o".toList :: (us ++ left)) :=
        ihe _ (.inr (.inr (by simp [Level.stops])))
      _ = readDisjuncts (.or e f) left := by rw [readDisjuncts_or, hr, Reading.andThen_ok]
  | @conjunct ts e _ ih =>
    intro left _
    change readConjunction (ts ++ left) = readConjuncts e left
    have hr : readNegation (ts ++ left) = .ok (e, left) := ih left trivial
    rw [readConjunction_eq, hr, Reading.andThen_ok]
  | @and ts us e f _ _ ihe ihf =>
    intro left _
    have hr : readNegation (us ++ left) = .ok (f, left) := ihf left trivial
    calc readConjunction ((ts ++ "-a".toList :: us) ++ left)
        = readConjunction (ts ++ "-a".toList :: (us ++ left)) := by simp
      _ = readConjuncts e ("-a".toList :: (us ++ left)) := ihe _ trivial
      _ = readConjuncts (.and e f) left := by rw [readConjuncts_and, hr, Reading.andThen_ok]
  | @beside ts us e f _ hs ihe ihf =>
    intro left _
    have hr : readNegation (us ++ left) = .ok (f, left) := ihf left trivial
    calc readConjunction ((ts ++ us) ++ left)
        = readConjunction (ts ++ (us ++ left)) := by simp
      _ = readConjuncts e (us ++ left) := ihe _ trivial
      _ = readConjuncts (.and e f) left := by
        rw [readConjuncts_beside hs, hr, Reading.andThen_ok]
  | @test ts e hs ih =>
    intro left _
    obtain ⟨token, rest, rfl⟩ : ∃ token rest, ts = token :: rest := by
      obtain ⟨token, rest, h, -⟩ := hs.head_mem (by decide)
      exact ⟨token, rest, h⟩
    have ht : token ≠ ['!'] := by rintro rfl; cases hs
    exact (readNegation_cons ht _).trans (ih left trivial)
  | @not ts e _ ih =>
    intro left _
    have hr : readNegation (ts ++ left) = .ok (e, left) := ih left trivial
    exact (readNegation_not (ts ++ left)).trans (by rw [hr]; rfl)
  | name pattern => exact fun left _ => readTest_name (pattern :: left)
  | kind k =>
    intro left _
    exact (readTest_kind ([k.letter] :: left)).trans
      (by simp [readArgument, ofLetter?_eq_some.mpr rfl, Except.map, Level.resume])
  | size side hne hd =>
    intro left _
    exact (readTest_size (_ :: left)).trans
      (by simp [readArgument, sizeTest?_eq_some.mpr ⟨side, _, rfl, hne, hd, rfl⟩, Except.map,
        Level.resume])
  | @parentheses ts e _ ih =>
    intro left _
    have hr : readExpressions .always (ts ++ [')'] :: left) = .ok (e, [')'] :: left) :=
      ih ([')'] :: left) (.inr (.inr (by simp [Level.stops])))
    have ho := readTest_open (ts ++ [')'] :: left)
    rw [hr, Reading.andThen_ok] at ho
    simpa [Level.read, Level.resume] using ho

/-! ## What is read spells what it is read as -/

/-- A reading at a level is sound when what it has used up spells what it was read as, and what it
leaves ends the level. -/
def Sound (level : Level) (tokens : List Text) (r : Reading) : Prop :=
  ∀ e left, r = .ok (e, left) →
    ∃ used, tokens = used ++ left ∧ Spells false level used e ∧ level.Ends left

section Soundness

variable {n : Nat} {tokens left : List Text}

/-- The reading of a test's argument is sound when the tests that it makes are spelled by the first
token and the argument. -/
theorem sound_readArgument {first : Text} {ofArgument : Text → Except Error Expr}
    (h : ∀ argument e, ofArgument argument = .ok e → Spells false .test [first, argument] e)
    (rest : List Text) : Sound .test (first :: rest) (readArgument first ofArgument rest) := by
  intro e left hr
  rcases rest with _ | ⟨argument, rest⟩
  · cases hr
  · rw [readArgument] at hr
    cases ha : ofArgument argument with
    | error err => simp [ha, Except.map] at hr
    | ok e' =>
      simp only [ha, Except.map, Except.ok.injEq, Prod.mk.injEq] at hr
      obtain ⟨rfl, rfl⟩ := hr
      exact ⟨[first, argument], rfl, h _ _ ha, .inr (.inl rfl)⟩

variable (hp : ∀ tokens : List Text, tokens.length < n →
  Sound .expressions tokens (readExpressions .always tokens))

include hp

theorem sound_readTest (first : Text) {rest : List Text} (hl : rest.length < n) :
    Sound .test (first :: rest) (readTest first rest) := by
  by_cases hn : first = "-name".toList
  · subst hn
    rw [readTest_name]
    refine sound_readArgument (fun argument e he => ?_) rest
    cases he
    exact .name argument
  by_cases hk : first = "-type".toList
  · subst hk
    rw [readTest_kind]
    refine sound_readArgument (fun argument e he => ?_) rest
    split at he
    · next k hk =>
      cases he
      obtain rfl := ofLetter?_eq_some.mp hk
      exact .kind k
    · cases he
  by_cases hs : first = "-size".toList
  · subst hs
    rw [readTest_size]
    refine sound_readArgument (fun argument e he => ?_) rest
    split at he
    · next e' hs =>
      cases he
      obtain ⟨side, digits, rfl, hne, hd, rfl⟩ := sizeTest?_eq_some.mp hs
      exact .size side hne hd
    · cases he
  by_cases ho : first = ['(']
  · subst ho
    intro e left hr
    rw [readTest_open, Reading.andThen_eq_ok] at hr
    obtain ⟨e', left', hr, hc⟩ := hr
    -- what stands between the parentheses is shorter, and so known to be read soundly
    obtain ⟨used, rfl, hs, -⟩ := hp rest hl e' left' hr
    rcases left' with _ | ⟨token, left'⟩
    · cases hc
    · simp only at hc
      split at hc
      · next ht =>
        cases hc
        exact ⟨['('] :: (used ++ [[')']]), by simp [ht], .parentheses hs, .inr (.inl rfl)⟩
      · cases hc
  · intro e left hr
    rw [readTest_unknown hn hk hs ho] at hr
    cases hr

theorem sound_readNegation (hl : tokens.length ≤ n) :
    Sound .negation tokens (readNegation tokens) := by
  induction tokens with
  | nil => exact fun e left hr => by simp [readNegation_nil] at hr
  | cons token rest ih =>
    rw [List.length_cons] at hl
    intro e left hr
    by_cases ht : token = ['!']
    · subst ht
      rw [readNegation_not, Reading.andThen_eq_ok] at hr
      obtain ⟨e', left', hr, he⟩ := hr
      cases he
      obtain ⟨used, rfl, hs, -⟩ := ih (by omega) e' left hr
      exact ⟨['!'] :: used, rfl, .not hs, .inl rfl⟩
    · rw [readNegation_cons ht] at hr
      obtain ⟨used, h, hs, -⟩ := sound_readTest hp token (by omega) e left hr
      exact ⟨used, h, .test hs, .inl rfl⟩

/-- The operands that follow are read soundly behind a conjunction. -/
theorem sound_readConjuncts (hs : Spells false .conjunction ts e) (hl : tokens.length ≤ n)
    (hr : readConjuncts e tokens = .ok (f, left)) :
    ∃ used, tokens = used ++ left ∧ Spells false .conjunction (ts ++ used) f ∧
      Level.conjunction.Ends left := by
  -- by the number of tokens, since every operand takes at least one
  induction hm : tokens.length using Nat.strongRecOn generalizing tokens ts e with
  | _ m ih =>
  subst hm
  -- one more operand, and what follows that one
  have further : ∀ before {rest : List Text}, tokens = before ++ rest → rest.length ≤ n →
      (∀ us g, Spells false .negation us g →
        Spells false .conjunction (ts ++ before ++ us) (.and e g)) →
      ((readNegation rest).andThen fun term left => readConjuncts (.and e term) left) =
        .ok (f, left) →
      ∃ used, tokens = used ++ left ∧ Spells false .conjunction (ts ++ used) f ∧
        Level.conjunction.Ends left := by
    rintro before rest rfl hl hj hfirst
    obtain ⟨g, left', hn, hlater⟩ := Reading.andThen_eq_ok.mp hfirst
    obtain ⟨used, rfl, hg, -⟩ := sound_readNegation hp hl g left' hn
    obtain ⟨token, tail, rfl, -⟩ := hg.head_mem (by decide)
    have hlt : left'.length < (before ++ (token :: tail ++ left')).length := by
      simp only [List.length_append, List.length_cons]
      omega
    obtain ⟨used', rfl, hf, he⟩ := ih left'.length hlt (hj _ g hg)
      (by simp only [List.length_append] at hl; omega) hlater rfl
    exact ⟨before ++ (token :: tail ++ used'), by simp, by simpa using hf, he⟩
  rcases tokens with _ | ⟨token, rest⟩
  · rw [readConjuncts_nil] at hr
    cases hr
    exact ⟨[], rfl, by simpa using hs, .inr (.inr (by simp))⟩
  · by_cases he : token = [')'] ∨ token = "-o".toList
    · rw [readConjuncts_end e he] at hr
      cases hr
      exact ⟨[], rfl, by simpa using hs, .inr (.inr (by simpa [Level.stops] using he))⟩
    by_cases ha : token = "-a".toList
    · subst ha
      rw [readConjuncts_and] at hr
      exact further ["-a".toList] rfl (by simp only [List.length_cons] at hl; omega)
        (fun us g hg => by simpa using Spells.and hs hg) hr
    · rw [readConjuncts_cons e he ha] at hr
      exact further [] rfl hl (fun us g hg => by simpa using Spells.beside hs hg) hr

theorem sound_readConjunction (hl : tokens.length ≤ n) :
    Sound .conjunction tokens (readConjunction tokens) := by
  intro f left hr
  rw [readConjunction_eq, Reading.andThen_eq_ok] at hr
  obtain ⟨e, left', hn, hr⟩ := hr
  obtain ⟨used, rfl, he, -⟩ := sound_readNegation hp hl e left' hn
  obtain ⟨used', rfl, hf, hend⟩ := sound_readConjuncts hp (.conjunct he)
    (by simp only [List.length_append] at hl; omega) hr
  exact ⟨used ++ used', by simp, hf, hend⟩

/-- The operands that follow are read soundly behind a disjunction. -/
theorem sound_readDisjuncts (hs : Spells false .disjunction ts e) (hl : tokens.length ≤ n)
    (hend : Level.conjunction.Ends tokens) (hr : readDisjuncts e tokens = .ok (f, left)) :
    ∃ used, tokens = used ++ left ∧ Spells false .disjunction (ts ++ used) f ∧
      Level.disjunction.Ends left := by
  -- by the number of tokens, as before; each operand is a whole conjunction now
  induction hm : tokens.length using Nat.strongRecOn generalizing tokens ts e with
  | _ m ih =>
  subst hm
  rcases tokens with _ | ⟨token, rest⟩
  · rw [readDisjuncts_nil] at hr
    cases hr
    exact ⟨[], rfl, by simpa using hs, .inr (.inr (by simp))⟩
  · by_cases ho : token = "-o".toList
    · subst ho
      rw [readDisjuncts_or, Reading.andThen_eq_ok] at hr
      obtain ⟨g, left', hc, hr⟩ := hr
      simp only [List.length_cons] at hl
      obtain ⟨used, rfl, hg, hend'⟩ := sound_readConjunction hp (by omega) g left' hc
      rw [List.length_append] at hl
      obtain ⟨used', rfl, hf, he⟩ := ih left'.length
        (by simp only [List.length_cons, List.length_append]; omega) (.or hs hg) (by omega)
        hend' hr rfl
      exact ⟨"-o".toList :: (used ++ used'), by simp, by simpa using hf, he⟩
    · rw [readDisjuncts_cons e ho] at hr
      cases hr
      -- the conjunction before it has stopped here, which leaves only a closing parenthesis
      have ht : token = [')'] ∨ token = "-o".toList := by
        simpa [Level.Ends, Level.stops] using hend
      refine ⟨[], rfl, by simpa using hs, .inr (.inr ?_)⟩
      simpa [Level.stops] using ht.resolve_right ho

theorem sound_readDisjunction (hl : tokens.length ≤ n) :
    Sound .disjunction tokens (readDisjunction tokens) := by
  intro f left hr
  rw [readDisjunction_eq, Reading.andThen_eq_ok] at hr
  obtain ⟨e, left', hc, hr⟩ := hr
  obtain ⟨used, rfl, he, hend⟩ := sound_readConjunction hp hl e left' hc
  obtain ⟨used', rfl, hf, hend⟩ := sound_readDisjuncts hp (.disjunct he)
    (by simp only [List.length_append] at hl; omega) hend hr
  exact ⟨used ++ used', by simp, hf, hend⟩

theorem sound_readExpressions_of_le (hl : tokens.length ≤ n) :
    Sound .expressions tokens (readExpressions .always tokens) := by
  intro f left hr
  rcases tokens with _ | ⟨token, rest⟩
  · rw [readExpressions_nil] at hr
    cases hr
    exact ⟨[], rfl, .nothing, .inr (.inr (by simp))⟩
  by_cases ht : token = [')']
  · subst ht
    rw [readExpressions_close] at hr
    cases hr
    exact ⟨[], rfl, .nothing, .inr (.inr (by simp [Level.stops]))⟩
  · rw [readExpressions_cons _ ht, Reading.andThen_eq_ok] at hr
    obtain ⟨e, left', hd, hr⟩ := hr
    obtain ⟨used, h, he, hend⟩ := sound_readDisjunction hp hl e left' hd
    -- a disjunction goes on to where the list of terms ends, so there is no second term
    have hj : juxtapose .always e = e := rfl
    rw [hj, readExpressions_of_ends hend] at hr
    cases hr
    exact ⟨used, h, .term he, by simpa [Level.Ends, Level.stops] using hend⟩

end Soundness

/-- What is read as a list of terms spells what it is read as. -/
theorem sound_readExpressions (tokens : List Text) :
    Sound .expressions tokens (readExpressions .always tokens) := by
  -- only parentheses lead back up to a list of terms, and what they hold is shorter
  induction hm : tokens.length using Nat.strongRecOn generalizing tokens with
  | _ m ih => exact sound_readExpressions_of_le (fun us hl => ih us.length hl us rfl) (Nat.le_of_eq hm)

/-- **What is read spells what it is read as**, at every level. -/
theorem sound_read (level : Level) (tokens : List Text) :
    Sound level tokens (level.read tokens) := by
  have hp : ∀ us : List Text, us.length < tokens.length →
      Sound .expressions us (readExpressions .always us) := fun us _ => sound_readExpressions us
  cases level with
  | expressions => exact sound_readExpressions tokens
  | disjunction => exact sound_readDisjunction hp (Nat.le_refl _)
  | conjunction => exact sound_readConjunction hp (Nat.le_refl _)
  | negation => exact sound_readNegation hp (Nat.le_refl _)
  | test =>
    rcases tokens with _ | ⟨first, rest⟩
    · exact fun e left h => nomatch h
    · exact sound_readTest hp first (Nat.lt_succ_self _)

/-- Below the list of terms, a reading uses up at least one token. -/
theorem length_lt_of_read (level : Level) {tokens left : List Text} {e : Expr}
    (hl : level ≠ .expressions) (h : level.read tokens = .ok (e, left)) :
    left.length < tokens.length := by
  obtain ⟨used, rfl, hs, -⟩ := sound_read level tokens e left h
  obtain ⟨token, rest, rfl, -⟩ := hs.head_mem hl
  simp only [List.length_append, List.length_cons]
  omega

/-- A query is read as an expression exactly when it spells it. -/
theorem parse_eq_ok_iff {tokens : List Text} :
    parse tokens = .ok e ↔ Spells false .expressions tokens e := by
  rw [parse_eq_ok]
  constructor
  · intro h
    obtain ⟨used, rfl, hs, -⟩ := sound_readExpressions tokens e [] h
    simpa using hs
  · intro h
    simpa [Level.read, Level.resume] using read_append h [] (.inr (.inr (by simp)))

/-- Asks for files. -/
def filesQuery : List Text := ["-type".toList, ['f']]

theorem parse_filesQuery : parse filesQuery = .ok (.kind .file) :=
  parse_eq_ok_iff.mpr (.term (.disjunct (.conjunct (.test (.kind .file)))))

/-! ## Terms next to each other -/

theorem Spells.mono (h : Spells false level ts e) : Spells true level ts e := by
  induction h with
  | nothing => exact .nothing
  | term _ ih => exact .term ih
  | adjoin h => cases h
  | disjunct _ ih => exact .disjunct ih
  | or _ _ ihe ihf => exact .or ihe ihf
  | conjunct _ ih => exact .conjunct ih
  | and _ _ ihe ihf => exact .and ihe ihf
  | beside _ _ ihe ihf => exact .beside ihe ihf
  | test _ ih => exact .test ih
  | not _ ih => exact .not ih
  | name pattern => exact .name pattern
  | kind k => exact .kind k
  | size side hne hd => exact .size side hne hd
  | parentheses _ ih => exact .parentheses ih

/-- Two conjunctions next to each other are one. -/
theorem exists_spells_conjunction_append (he : Spells adjacent .conjunction ts e)
    (hf : Spells adjacent .conjunction us f) : ∃ g, Spells adjacent .conjunction (ts ++ us) g := by
  -- the operands of the second are joined to the first one by one
  generalize hl : Level.conjunction = level at hf
  induction hf with
  | conjunct hn => exact ⟨_, .beside he hn⟩
  | and _ hn ih =>
    obtain ⟨g, hg⟩ := ih hl
    exact ⟨_, by simpa using Spells.and hg hn⟩
  | beside _ hn ih =>
    obtain ⟨g, hg⟩ := ih hl
    exact ⟨_, by simpa using Spells.beside hg hn⟩
  | _ => cases hl

/-- Two disjunctions next to each other are one: the last operand of the first and the first operand
of the second become one conjunction. -/
theorem exists_spells_disjunction_append (he : Spells adjacent .disjunction ts e)
    (hf : Spells adjacent .disjunction us f) : ∃ g, Spells adjacent .disjunction (ts ++ us) g := by
  generalize hl : Level.disjunction = level at hf
  induction hf with
  | disjunct hc =>
    -- the seam is inside the last operand of the first disjunction
    cases he with
    | disjunct he =>
      obtain ⟨g, hg⟩ := exists_spells_conjunction_append he hc
      exact ⟨g, .disjunct hg⟩
    | or hd he =>
      obtain ⟨g, hg⟩ := exists_spells_conjunction_append he hc
      exact ⟨_, by simpa using Spells.or hd hg⟩
  | or _ hc ih =>
    obtain ⟨g, hg⟩ := ih hl
    exact ⟨_, by simpa using Spells.or hg hc⟩
  | _ => cases hl

/-- What terms next to each other spell is spelled without them, at every level. -/
theorem Spells.exists_not_adjacent (h : Spells true level ts e) : ∃ g, Spells false level ts g := by
  induction h with
  | nothing => exact ⟨_, .nothing⟩
  | term _ ih => exact ih.imp fun _ => .term
  | adjoin _ _ _ ihe ihf =>
    obtain ⟨g, hg⟩ := ihe
    obtain ⟨g', hg'⟩ := ihf
    cases hg with
    | nothing => exact ⟨g', .term hg'⟩
    | term hg => exact (exists_spells_disjunction_append hg hg').imp fun _ => .term
    | adjoin h => cases h
  | disjunct _ ih => exact ih.imp fun _ => .disjunct
  | or _ _ ihe ihf => exact ⟨_, .or ihe.choose_spec ihf.choose_spec⟩
  | conjunct _ ih => exact ih.imp fun _ => .conjunct
  | and _ _ ihe ihf => exact ⟨_, .and ihe.choose_spec ihf.choose_spec⟩
  | beside _ _ ihe ihf => exact ⟨_, .beside ihe.choose_spec ihf.choose_spec⟩
  | test _ ih => exact ih.imp fun _ => .test
  | not _ ih => exact ⟨_, .not ih.choose_spec⟩
  | name pattern => exact ⟨_, .name pattern⟩
  | kind k => exact ⟨_, .kind k⟩
  | size side hne hd => exact ⟨_, .size side hne hd⟩
  | parentheses _ ih => exact ih.imp fun _ => .parentheses

/-- Both grammars accept the same token lists. -/
theorem exists_spells_iff {tokens : List Text} :
    (∃ e, Spells true .expressions tokens e) ↔ ∃ e, Spells false .expressions tokens e :=
  ⟨fun ⟨_, h⟩ => h.exists_not_adjacent, fun ⟨e, h⟩ => ⟨e, h.mono⟩⟩

/-- **Queries are read exactly as the grammar says.** Tokens are read as an expression when they
spell it, terms next to each other being operands of one conjunction; the tokens that are read at
all are also those of the grammar with lists of terms; and all others are the fault of a query. -/
theorem parse_eq_ok_iff_spells (tokens : List Text) :
    (∀ e, parse tokens = .ok e ↔ Spells false .expressions tokens e) ∧
    ((∃ e, parse tokens = .ok e) ↔ ∃ e, Spells true .expressions tokens e) ∧
    ((∃ err, parse tokens = .error err ∧ err.fault = .query err.message err.token) ↔
      ¬ ∃ e, Spells true .expressions tokens e) := by
  have hok : (∃ e, parse tokens = .ok e) ↔ ∃ e, Spells true .expressions tokens e := by
    rw [exists_spells_iff]
    exact exists_congr fun e => parse_eq_ok_iff
  refine ⟨fun e => parse_eq_ok_iff, hok, ?_⟩
  rw [← hok]
  cases parse tokens with
  | error err => simp [Error.fault]
  | ok e => simp

end DirectoryListing.Query
