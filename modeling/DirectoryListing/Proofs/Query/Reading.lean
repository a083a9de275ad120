import DirectoryListing.Query

/-!
# Readings

The levels of a query hand back what is left of the tokens with a proof that it is shorter, which
their termination needs and nothing else does. Here each level is restated without that proof, by
one equation for every way in which its tokens can start; all further facts about queries rest on
these equations.

## Main definitions

* `Query.Reading`: an expression and the tokens that are left, or an error
* `Query.readExpressions`, `Query.readDisjunction`, `Query.readConjunction`, `Query.readNegation`,
  `Query.readTest`: the levels as readings
* `Query.readDisjuncts`, `Query.readConjuncts`: the operands that follow, level by level

## Main results

* `Query.parse_eq`: a query is read when nothing is left of it
-/

namespace DirectoryListing.Query

/-- An expression and the tokens that are left behind it, or an error. -/
abbrev Reading := Except Error (Expr × List Text)

namespace Reading

/-- Reads on, with the expression read so far, where a reading stops. -/
def andThen (r : Reading) (next : Expr → List Text → Reading) : Reading :=
  match r with
  | .error err => .error err
  | .ok (e, left) => next e left

@[simp] theorem andThen_ok (e : Expr) (left : List Text) (next : Expr → List Text → Reading) :
    andThen (.ok (e, left)) next = next e left := rfl

@[simp] theorem andThen_error (err : Error) (next : Expr → List Text → Reading) :
    andThen (.error err) next = .error err := rfl

theorem andThen_eq_ok {r : Reading} {next : Expr → List Text → Reading} {x : Expr × List Text} :
    r.andThen next = .ok x ↔ ∃ e left, r = .ok (e, left) ∧ next e left = .ok x := by
  rcases r with err | ⟨e, left⟩
  · simp
  · constructor
    · intro h
      exact ⟨e, left, rfl, h⟩
    · rintro ⟨e', left', h, hn⟩
      cases h
      exact hn

theorem andThen_eq_error {r : Reading} {next : Expr → List Text → Reading} {err : Error} :
    r.andThen next = .error err ↔
      r = .error err ∨ ∃ e left, r = .ok (e, left) ∧ next e left = .error err := by
  rcases r with err' | ⟨e, left⟩
  · simp
  · constructor
    · intro h
      exact .inr ⟨e, left, rfl, h⟩
    · rintro (h | ⟨e', left', h, hn⟩)
      · cases h
      · cases h
        exact hn

end Reading

/-- The result of a level without the bound on what is left. -/
def bare {p : List Text → Prop} (r : Except Error (Expr × { rest // p rest })) : Reading :=
  r.map fun (e, left) => (e, left.1)

/-- Terms up to a closing parenthesis or the end, behind the expression `e`. -/
def readExpressions (e : Expr) (tokens : List Text) : Reading := bare (expressions e tokens)

/-- A disjunction. -/
def readDisjunction (tokens : List Text) : Reading := bare (disjunction tokens)

/-- Further operands of the disjunction `e`. -/
def readDisjuncts (e : Expr) (tokens : List Text) : Reading := bare (disjuncts e tokens)

/-- A conjunction. -/
def readConjunction (tokens : List Text) : Reading := bare (conjunction tokens)

/-- Further operands of the conjunction `e`. -/
def readConjuncts (e : Expr) (tokens : List Text) : Reading := bare (conjuncts e tokens)

/-- A negation. -/
def readNegation (tokens : List Text) : Reading := bare (negation tokens)

/-- A test, by its first token and the tokens after it. -/
def readTest (first : Text) (rest : List Text) : Reading := bare (test first rest)

/-! ## Expressions -/

theorem readExpressions_nil (e : Expr) : readExpressions e [] = .ok (e, []) := by
  rw [readExpressions, expressions]
  rfl

theorem readExpressions_close (e : Expr) (rest : List Text) :
    readExpressions e ([')'] :: rest) = .ok (e, [')'] :: rest) := by
  rw [readExpressions, expressions, if_pos rfl]
  rfl

theorem readExpressions_cons (e : Expr) {token : Text} (h : token ≠ [')']) (rest : List Text) :
    readExpressions e (token :: rest) =
      (readDisjunction (token :: rest)).andThen fun term left =>
        readExpressions (juxtapose e term) left := by
  simp only [readExpressions, readDisjunction]
  rw [expressions, if_neg h]
  rcases disjunction (token :: rest) with err | ⟨term, left, hl⟩
  · rfl
  · simp only
    rcases hr : expressions (juxtapose e term) left with err | ⟨e', left', hl'⟩ <;>
      simp [bare, Except.map, hr]

/-! ## Disjunctions -/

theorem readDisjunction_eq (tokens : List Text) :
    readDisjunction tokens = (readConjunction tokens).andThen readDisjuncts := by
  simp only [readDisjunction, readConjunction]
  rw [disjunction]
  rcases conjunction tokens with err | ⟨e, left, hl⟩
  · rfl
  · simp only
    rcases hr : disjuncts e left with err | ⟨e', left', hl'⟩ <;>
      simp [bare, Except.map, readDisjuncts, hr]

theorem readDisjuncts_nil (e : Expr) : readDisjuncts e [] = .ok (e, []) := by
  rw [readDisjuncts, disjuncts]
  rfl

theorem readDisjuncts_or (e : Expr) (rest : List Text) :
    readDisjuncts e ("-o".toList :: rest) =
      (readConjunction rest).andThen fun term left => readDisjuncts (.or e term) left := by
  simp only [readDisjuncts, readConjunction]
  rw [disjuncts, if_pos rfl]
  rcases conjunction rest with err | ⟨term, left, hl⟩
  · rfl
  · simp only
    rcases hr : disjuncts (.or e term) left with err | ⟨e', left', hl'⟩ <;>
      simp [bare, Except.map, hr]

theorem readDisjuncts_cons (e : Expr) {token : Text} (h : token ≠ "-o".toList)
    (rest : List Text) : readDisjuncts e (token :: rest) = .ok (e, token :: rest) := by
  rw [readDisjuncts, disjuncts, if_neg h]
  rfl

/-! ## Conjunctions -/

theorem readConjunction_eq (tokens : List Text) :
    readConjunction tokens = (readNegation tokens).andThen readConjuncts := by
  simp only [readConjunction, readNegation]
  rw [conjunction]
  rcases negation tokens with err | ⟨e, left, hl⟩
  · rfl
  · simp only
    rcases hr : conjuncts e left with err | ⟨e', left', hl'⟩ <;>
      simp [bare, Except.map, readConjuncts, hr]

theorem readConjuncts_nil (e : Expr) : readConjuncts e [] = .ok (e, []) := by
  rw [readConjuncts, conjuncts]
  rfl

/-- A token that ends a conjunction is left to the level above. -/
theorem readConjuncts_end (e : Expr) {token : Text} (h : token = [')'] ∨ token = "-o".toList)
    (rest : List Text) : readConjuncts e (token :: rest) = .ok (e, token :: rest) := by
  rw [readConjuncts, conjuncts, if_pos h]
  rfl

theorem readConjuncts_and (e : Expr) (rest : List Text) :
    readConjuncts e ("-a".toList :: rest) =
      (readNegation rest).andThen fun term left => readConjuncts (.and e term) left := by
  simp only [readConjuncts, readNegation]
  rw [conjuncts, if_neg (by decide), if_pos rfl]
  rcases negation rest with err | ⟨term, left, hl⟩
  · rfl
  · simp only
    rcases hr : conjuncts (.and e term) left with err | ⟨e', left', hl'⟩ <;>
      simp [bare, Except.map, hr]

theorem readConjuncts_cons (e : Expr) {token : Text} (h : ¬ (token = [')'] ∨ token = "-o".toList))
    (ha : token ≠ "-a".toList) (rest : List Text) :
    readConjuncts e (token :: rest) =
      (readNegation (token :: rest)).andThen fun term left => readConjuncts (.and e term) left := by
  simp only [readConjuncts, readNegation]
  rw [conjuncts, if_neg h, if_neg ha]
  rcases negation (token :: rest) with err | ⟨term, left, hl⟩
  · rfl
  · simp only
    rcases hr : conjuncts (.and e term) left with err | ⟨e', left', hl'⟩ <;>
      simp [bare, Except.map, hr]

/-! ## Negations -/

theorem readNegation_nil : readNegation [] = .error .unexpectedEnd := by
  rw [readNegation, negation]
  rfl

theorem readNegation_not (rest : List Text) :
    readNegation (['!'] :: rest) =
      (readNegation rest).andThen fun e left => .ok (.not e, left) := by
  simp only [readNegation]
  rw [negation, if_pos rfl]
  rcases negation rest with err | ⟨e, left, hl⟩ <;> rfl

theorem readNegation_cons {token : Text} (h : token ≠ ['!']) (rest : List Text) :
    readNegation (token :: rest) = readTest token rest := by
  simp only [readNegation, readTest]
  rw [negation, if_neg h]

/-! ## Tests -/

/-- The test of a token that takes an argument, made of that argument. -/
def readArgument (first : Text) (ofArgument : Text → Except Error Expr) : List Text → Reading
  | [] => .error (.missingArgument first)
  | argument :: left => (ofArgument argument).map fun e => (e, left)

theorem readTest_name (rest : List Text) :
    readTest "-name".toList rest =
      readArgument "-name".toList (fun pattern => .ok (.name pattern)) rest := by
  rw [readTest, test.eq_def, if_pos rfl]
  cases rest <;> rfl

theorem readTest_kind (rest : List Text) :
    readTest "-type".toList rest =
      readArgument "-type".toList
        (fun argument => match Kind.ofLetter? argument with
          | some k => .ok (.kind k)
          | none => .error (.badKind argument)) rest := by
  rw [readTest, test.eq_def, if_neg (by decide), if_pos rfl]
  rcases rest with _ | ⟨argument, left⟩
  · rfl
  · cases hk : Kind.ofLetter? argument <;> simp [bare, Except.map, readArgument, hk]

theorem readTest_size (rest : List Text) :
    readTest "-size".toList rest =
      readArgument "-size".toList
        (fun argument => match sizeTest? argument with
          | some e => .ok e
          | none => .error (.badSize argument)) rest := by
  rw [readTest, test.eq_def, if_neg (by decide), if_neg (by decide), if_pos rfl]
  rcases rest with _ | ⟨argument, left⟩
  · rfl
  · cases hs : sizeTest? argument <;> simp [bare, Except.map, readArgument, hs]

theorem readTest_open (rest : List Text) :
    readTest ['('] rest =
      (readExpressions .always rest).andThen fun e left => match left with
        | [] => .error (.unclosed none)
        | token :: left =>
          if token = [')'] then .ok (e, left) else .error (.unclosed (some token)) := by
  simp only [readTest, readExpressions]
  rw [test.eq_def, if_neg (by decide), if_neg (by decide), if_neg (by decide), if_pos rfl]
  rcases expressions .always rest with err | ⟨e, _ | ⟨token, left⟩, hl⟩
  · rfl
  · rfl
  · by_cases ht : token = [')'] <;> simp [bare, Except.map, ht]

/-- Tests start with one of four tokens. -/
theorem readTest_unknown {first : Text} (hn : first ≠ "-name".toList) (hk : first ≠ "-type".toList)
    (hs : first ≠ "-size".toList) (ho : first ≠ ['(']) (rest : List Text) :
    readTest first rest = .error (.unknownToken first) := by
  rw [readTest, test.eq_def, if_neg hn, if_neg hk, if_neg hs, if_neg ho]
  rfl

/-! ## Whole queries -/

/-- A query is read when nothing is left of it; what stands there else is out of place. -/
theorem parse_eq (tokens : List Text) :
    parse tokens = match readExpressions .always tokens with
      | .error err => .error err
      | .ok (e, []) => .ok e
      | .ok (_, token :: _) => .error (.unopened token) := by
  simp only [parse, readExpressions]
  rcases expressions .always tokens with err | ⟨e, _ | ⟨token, left⟩, hl⟩ <;> rfl

theorem parse_eq_ok {tokens : List Text} {e : Expr} :
    parse tokens = .ok e ↔ readExpressions .always tokens = .ok (e, []) := by
  rw [parse_eq]
  rcases readExpressions .always tokens with err | ⟨e, _ | ⟨token, left⟩⟩ <;> simp

end DirectoryListing.Query
