import DirectoryListing.Proofs.Query.Grammar
import DirectoryListing.Proofs.Text.Digits

/-!
# Rendered expressions

An expression in the words of a query can be cut into tokens and read as a query again. What comes
of that is settled here. Operators then associate to the left, which keeps the meaning. A negation
then covers only the first operand of a conjunction under it, which does not. And an operand that
always holds has no words, so the expression around it cannot be read at all.

## Main definitions

* `Text.tokens`: what stands between the blanks of a text
* `Expr.tokens`: the tokens that an expression is rendered with
* `Expr.reread`: what these tokens are read as
* `Expr.isGapless`, `Expr.negatesNoConjunction`: what the two defects need
* `Query.nameArguments`: the arguments of the name tests among some tokens

## Main results

* `Expr.tokens_render`: rendering writes these tokens, if no pattern is empty or holds a blank
* `Expr.parse_tokens_eq_ok_iff`: what they are read as, and when they are read
* `Expr.evaluate_reread`: reading them again keeps the meaning unless a conjunction is negated
* `Query.parse_tokens_render`: when a rendered query means the same
-/

namespace DirectoryListing

/-! ## The tokens of a text -/

namespace Text

/-- The tokens of a text: what stands between its blanks. -/
def tokens (t : Text) : List Text :=
  (t.splitOnP DirectoryListing.isBlank).filter (!·.isEmpty)

@[simp] theorem tokens_nil : tokens [] = [] := by
  simp [tokens]

theorem tokens_append_blank {c : Char} (h : DirectoryListing.isBlank c = true) (t u : Text) :
    tokens (t ++ c :: u) = tokens t ++ tokens u := by
  simp [tokens, List.splitOnP_append_cons t u h]

theorem tokens_of_not_blank {t : Text} (hne : t ≠ [])
    (h : ∀ c ∈ t, DirectoryListing.isBlank c = false) : tokens t = [t] := by
  simp [tokens, List.splitOnP_eq_singleton h, hne]

/-- A blank between two texts parts their tokens, whatever stands around it. -/
theorem tokens_append_space (t u : Text) : tokens (t ++ ' ' :: u) = tokens t ++ tokens u :=
  tokens_append_blank (by decide) t u

end Text

namespace Expr

/-! ## The tokens of an expression -/

/-- The tokens of an operand, given the operand and its tokens as an expression. -/
def operandTokens (e : Expr) (tokens : List Text) : List Text :=
  if e.isDisjunction then ['('] :: (tokens ++ [[')']]) else tokens

/-- The tokens that an expression is rendered with. -/
def tokens : Expr → List Text
  | always => []
  | name pattern => ["-name".toList, pattern]
  | kind k => ["-type".toList, [k.letter]]
  | size side bound => ["-size".toList, sizeSign side ++ Text.ofInt bound]
  | not e => ['!'] :: operandTokens e e.tokens
  | and l r => operandTokens l l.tokens ++ "-a".toList :: operandTokens r r.tokens
  | or l r => l.tokens ++ "-o".toList :: r.tokens
  | foreign v => v.display.tokens

/-- The patterns of an expression, from left to right. -/
def patterns : Expr → List Text
  | name pattern => [pattern]
  | not e => e.patterns
  | and l r | or l r => l.patterns ++ r.patterns
  | _ => []

theorem tokens_operandText (e : Expr) (text : Text) :
    (operandText e text).tokens = operandTokens e text.tokens := by
  unfold operandText operandTokens
  split
  · calc Text.tokens ("( ".toList ++ text ++ " )".toList)
        = Text.tokens (['('] ++ ' ' :: (text ++ ' ' :: [')'])) := by simp
      _ = ['('] :: (text.tokens ++ [[')']]) := by
        rw [Text.tokens_append_space, Text.tokens_append_space]
        rfl
  · rfl

theorem tokens_renderedTest {argument : Text} (test : Text) (ht : test.tokens = [test])
    (hne : argument ≠ []) (h : ∀ c ∈ argument, isBlank c = false) :
    Text.tokens (test ++ ' ' :: argument) = [test, argument] := by
  rw [Text.tokens_append_space, ht, Text.tokens_of_not_blank hne h]
  rfl

theorem not_isBlank_of_mem_bound {side : Ordering} {bound : Int} {c : Char}
    (h : c ∈ sizeSign side ++ Text.ofInt bound) : isBlank c = false := by
  have hd : ∀ n : Nat, c ∈ Text.ofNat n → isBlank c = false := fun n hc =>
    Text.not_isBlank_of_isDigit (Text.isDigit_of_mem_ofNat hc)
  rcases List.mem_append.mp h with h | h
  · cases side <;> simp only [sizeSign, List.mem_singleton, List.not_mem_nil] at h <;>
      subst h <;> decide
  · cases bound with
    | ofNat n => exact hd n h
    | negSucc n =>
      rcases List.mem_cons.mp h with rfl | h
      · decide
      · exact hd _ h

/-- **Rendering writes the tokens of an expression**, if no pattern is empty or holds a blank. -/
theorem tokens_render {e : Expr}
    (h : ∀ p ∈ e.patterns, p ≠ [] ∧ ∀ c ∈ p, isBlank c = false) : e.render.tokens = e.tokens := by
  induction e with
  | always => exact Text.tokens_nil
  | name pattern =>
    obtain ⟨hne, hb⟩ := h pattern (by simp [patterns])
    exact tokens_renderedTest "-name".toList (by decide) hne hb
  | kind k =>
    have hk : ∀ c ∈ [k.letter], isBlank c = false := by
      rw [List.forall_mem_singleton]
      cases k <;> decide
    exact tokens_renderedTest "-type".toList (by decide) (by simp) hk
  | size side bound =>
    have hne : sizeSign side ++ Text.ofInt bound ≠ [] := by
      cases bound <;> simp [Text.ofInt, Text.ofNat]
    exact tokens_renderedTest "-size".toList (by decide) hne
      fun c hc => not_isBlank_of_mem_bound hc
  | not e ih =>
    calc Text.tokens (['!'] ++ ' ' :: operandText e e.render)
        = Text.tokens ['!'] ++ Text.tokens (operandText e e.render) := Text.tokens_append_space _ _
      _ = (not e).tokens := by
        rw [tokens_operandText, ih h]
        rfl
  -- the blanks around an operator cut its operands apart
  | and l r ihl ihr =>
    simp only [patterns, List.mem_append] at h
    calc Text.tokens (operandText l l.render ++ " -a ".toList ++ operandText r r.render)
        = Text.tokens (operandText l l.render ++ ' ' ::
            ("-a".toList ++ ' ' :: operandText r r.render)) := by simp
      _ = (and l r).tokens := by
        rw [Text.tokens_append_space, Text.tokens_append_space, tokens_operandText,
          tokens_operandText, ihl fun p hp => h p (.inl hp), ihr fun p hp => h p (.inr hp)]
        rfl
  | or l r ihl ihr =>
    simp only [patterns, List.mem_append] at h
    calc Text.tokens (l.render ++ " -o ".toList ++ r.render)
        = Text.tokens (l.render ++ ' ' :: ("-o".toList ++ ' ' :: r.render)) := by simp
      _ = (or l r).tokens := by
        rw [Text.tokens_append_space, Text.tokens_append_space,
          ihl fun p hp => h p (.inl hp), ihr fun p hp => h p (.inr hp)]
        rfl
  | foreign v => rfl

/-! ## What the tokens are read as -/

/-- No part of the expression is empty, that is, always holds. -/
def isGapless : Expr → Bool
  | always => false
  | not e => e.isGapless
  | and l r | or l r => l.isGapless && r.isGapless
  | _ => true

/-- The expression is one of those that queries spell: it has no foreign parts, and no bound of a
size is negative. -/
def isPlain : Expr → Bool
  | foreign _ => false
  | size _ bound => 0 ≤ bound
  | not e => e.isPlain
  | and l r | or l r => l.isPlain && r.isPlain
  | _ => true

/-- The expression with its first conjunct changed. -/
def onConjunct (g : Expr → Expr) : Expr → Expr
  | and l r => and (onConjunct g l) r
  | e => g e

/-- The expression with its first disjunct changed. -/
def onDisjunct (g : Expr → Expr) : Expr → Expr
  | or l r => or (onDisjunct g l) r
  | e => g e

/-- What the tokens of an expression are read as. The operands of an operator follow what stands
before them one by one, and a negation covers only the first of the conjuncts behind it. -/
def reread : Expr → Expr
  | not e => onConjunct not e.reread
  | and l r => onConjunct (and l.reread) r.reread
  | or l r => onDisjunct (or l.reread) r.reread
  | e => e

theorem onConjunct_onConjunct (g h : Expr → Expr) (e : Expr) :
    onConjunct g (onConjunct h e) = onConjunct (fun x => onConjunct g (h x)) e := by
  induction e <;> simp_all [onConjunct]

theorem onDisjunct_onDisjunct (g h : Expr → Expr) (e : Expr) :
    onDisjunct g (onDisjunct h e) = onDisjunct (fun x => onDisjunct g (h x)) e := by
  induction e <;> simp_all [onDisjunct]

theorem onConjunct_id (e : Expr) : onConjunct id e = e := by
  induction e <;> simp_all [onConjunct]

theorem onDisjunct_id (e : Expr) : onDisjunct id e = e := by
  induction e <;> simp_all [onDisjunct]

theorem onConjunct_of_isDisjunction (g : Expr → Expr) {e : Expr} (h : e.isDisjunction = true) :
    onConjunct g e = g e := by
  cases e <;> simp_all [onConjunct, isDisjunction]

theorem onDisjunct_of_not_isDisjunction (g : Expr → Expr) {e : Expr}
    (h : e.isDisjunction = false) : onDisjunct g e = g e := by
  cases e <;> simp_all [onDisjunct, isDisjunction]

/-- Reading an expression again keeps whether it is a disjunction. -/
theorem isDisjunction_reread (e : Expr) : e.reread.isDisjunction = e.isDisjunction := by
  cases e with
  | not e => cases h : e.reread <;> simp [reread, onConjunct, isDisjunction, h]
  | and l r => cases h : r.reread <;> simp [reread, onConjunct, isDisjunction, h]
  | or l r => cases h : r.reread <;> simp [reread, onDisjunct, isDisjunction, h]
  | _ => rfl

end Expr

namespace Query

open DirectoryListing.Expr

/-- The tokens `before` lead over to a level: with something of the level below behind them, they
spell what `g` makes of it. -/
def Leads (level below : Level) (before : List Text) (g : Expr → Expr) : Prop :=
  ∀ us f, Spells false below us f → Spells false level (before ++ us) (g f)

theorem Leads.not {before : List Text} {g : Expr → Expr}
    (h : Leads .conjunction .negation before g) :
    Leads .conjunction .negation (before ++ [['!']]) fun f => g (.not f) := by
  intro us f hf
  simpa using h (['!'] :: us) (.not f) (.not hf)

theorem leads_and {ts : List Text} {e : Expr} (h : Spells false .conjunction ts e) :
    Leads .conjunction .negation (ts ++ ["-a".toList]) (.and e) := by
  intro us f hf
  simpa using Spells.and h hf

theorem leads_or {ts : List Text} {e : Expr} (h : Spells false .disjunction ts e) :
    Leads .disjunction .conjunction (ts ++ ["-o".toList]) (.or e) := by
  intro us f hf
  simpa using Spells.or h hf

/-- What the tokens of an expression spell behind others: as an operand, and as a disjunction. -/
structure Respelled (e : Expr) : Prop where
  operand : ∀ before g, Leads .conjunction .negation before g →
    Spells false .conjunction (before ++ operandTokens e e.tokens) (onConjunct g e.reread)
  disjunction : ∀ before g, Leads .disjunction .conjunction before g →
    Spells false .disjunction (before ++ e.tokens) (onDisjunct g e.reread)

/-- An expression that is no disjunction is spelled alike in both places. -/
theorem Respelled.of_operand {e : Expr} (hd : e.isDisjunction = false)
    (h : ∀ before g, Leads .conjunction .negation before g →
      Spells false .conjunction (before ++ e.tokens) (onConjunct g e.reread)) : Respelled e where
  operand := by simpa [operandTokens, hd] using h
  disjunction before g hl := by
    rw [onDisjunct_of_not_isDisjunction g ((isDisjunction_reread e).trans hd)]
    have he := h [] id fun us f hf => .conjunct hf
    rw [onConjunct_id] at he
    exact hl e.tokens e.reread he

/-- A bound that is not negative is spelled by its numeral. -/
theorem spells_size {adjacent : Bool} {bound : Int} (side : Ordering) (h : 0 ≤ bound) :
    Spells adjacent .test ["-size".toList, sizeSign side ++ Text.ofInt bound]
      (.size side bound) := by
  obtain ⟨n, rfl⟩ := Int.eq_ofNat_of_zero_le h
  have spells := @Spells.size adjacent side (Text.ofNat n) (Text.ofNat_ne_nil n)
    (Text.all_isDigit_ofNat n)
  rwa [Text.toNat_ofNat] at spells

/-- The tokens of an expression spell what they are read as, wherever they may stand. -/
theorem respelled {e : Expr} (hp : e.isPlain = true) (hg : e.isGapless = true) : Respelled e := by
  -- what stands before an expression is general, so each operand can take what its operator adds
  induction e with
  | always => cases hg
  | name pattern => exact .of_operand rfl fun before g hl => hl _ _ (.test (.name pattern))
  | kind k => exact .of_operand rfl fun before g hl => hl _ _ (.test (.kind k))
  | size side bound =>
    have bounded : 0 ≤ bound := by simpa [isPlain] using hp
    exact .of_operand rfl fun before g hl => hl _ _ (.test (spells_size side bounded))
  | not e ih =>
    refine .of_operand rfl fun before g hl => ?_
    -- the negation belongs to what leads over to its operand, and ends up on the first conjunct
    have h := (ih hp hg).operand _ _ hl.not
    rw [reread, onConjunct_onConjunct]
    simpa [tokens, onConjunct] using h
  | and l r ihl ihr =>
    simp only [isPlain, isGapless, Bool.and_eq_true] at hp hg
    refine .of_operand rfl fun before g hl => ?_
    have h := (ihr hp.2 hg.2).operand _ _ (leads_and ((ihl hp.1 hg.1).operand before g hl))
    rw [reread, onConjunct_onConjunct]
    simpa [tokens, onConjunct] using h
  | or l r ihl ihr =>
    simp only [isPlain, isGapless, Bool.and_eq_true] at hp hg
    have hd : ∀ before g, Leads .disjunction .conjunction before g →
        Spells false .disjunction (before ++ (or l r).tokens) (onDisjunct g (or l r).reread) := by
      intro before g hl
      have h := (ihr hp.2 hg.2).disjunction _ _
        (leads_or ((ihl hp.1 hg.1).disjunction before g hl))
      rw [reread, onDisjunct_onDisjunct]
      simpa [tokens, onDisjunct] using h
    refine ⟨fun before g hl => ?_, hd⟩
    -- as an operand it stands in parentheses, so nothing before it gets inside
    have h := hd [] id fun us f hf => .disjunct hf
    rw [onDisjunct_id, List.nil_append] at h
    rw [onConjunct_of_isDisjunction g (isDisjunction_reread (or l r))]
    exact hl _ _ (.test (.parentheses (.term h)))
  | foreign v => cases hp

/-! ## When the tokens are read -/

/-- The reading comes to nothing. -/
def Fails (r : Reading) : Prop := ∃ err, r = .error err

theorem fails_andThen {r : Reading} {next : Expr → List Text → Reading} :
    Fails (r.andThen next) ↔ Fails r ∨ ∃ e left, r = .ok (e, left) ∧ Fails (next e left) := by
  simp only [Fails, Reading.andThen_eq_error, exists_or]
  refine or_congr_right ⟨?_, ?_⟩
  · rintro ⟨err, e, left, hr, h⟩
    exact ⟨e, left, hr, err, h⟩
  · rintro ⟨e, left, hr, err, h⟩
    exact ⟨err, e, left, hr, h⟩

/-- Whether the operands behind a conjunction are read does not depend on the conjunction. -/
theorem Fails.conjuncts {e : Expr} {tokens : List Text} (h : Fails (readConjuncts e tokens))
    (e' : Expr) : Fails (readConjuncts e' tokens) := by
  -- by the number of tokens: another operand is read, or not, whatever has been read before it
  induction hm : tokens.length using Nat.strongRecOn generalizing tokens e e' with
  | _ m ih =>
  subst hm
  have further : ∀ rest : List Text, rest.length ≤ tokens.length →
      Fails ((readNegation rest).andThen fun term left => readConjuncts (.and e term) left) →
      Fails ((readNegation rest).andThen fun term left => readConjuncts (.and e' term) left) := by
    intro rest hl h
    rcases fails_andThen.mp h with h | ⟨f, left, hr, h⟩
    · exact fails_andThen.mpr (.inl h)
    · have hlt : left.length < tokens.length :=
        Nat.lt_of_lt_of_le (length_lt_of_read .negation (by decide) hr) hl
      exact fails_andThen.mpr (.inr ⟨f, left, hr, ih left.length hlt h _ rfl⟩)
  rcases tokens with _ | ⟨token, rest⟩
  · rw [readConjuncts_nil] at h
    exact absurd h (by simp [Fails])
  · by_cases he : token = [')'] ∨ token = "-o".toList
    · rw [readConjuncts_end e he] at h
      exact absurd h (by simp [Fails])
    by_cases ha : token = "-a".toList
    · subst ha
      rw [readConjuncts_and] at h ⊢
      exact further rest (by simp) h
    · rw [readConjuncts_cons e he ha] at h
      rw [readConjuncts_cons e' he ha]
      exact further (token :: rest) (Nat.le_refl _) h

/-- Likewise for the operands behind a disjunction. -/
theorem Fails.disjuncts {e : Expr} {tokens : List Text} (h : Fails (readDisjuncts e tokens))
    (e' : Expr) : Fails (readDisjuncts e' tokens) := by
  induction hm : tokens.length using Nat.strongRecOn generalizing tokens e e' with
  | _ m ih =>
  subst hm
  rcases tokens with _ | ⟨token, rest⟩
  · rw [readDisjuncts_nil] at h
    exact absurd h (by simp [Fails])
  · by_cases ho : token = "-o".toList
    · subst ho
      rw [readDisjuncts_or] at h ⊢
      rcases fails_andThen.mp h with h | ⟨f, left, hr, h⟩
      · exact fails_andThen.mpr (.inl h)
      · have hlt : left.length < rest.length :=
          length_lt_of_read .conjunction (by decide) hr
        exact fails_andThen.mpr (.inr ⟨f, left, hr,
          ih left.length (Nat.lt_succ_of_lt hlt) h _ rfl⟩)
    · rw [readDisjuncts_cons e ho] at h
      exact absurd h (by simp [Fails])

theorem Fails.conjunction_not {tokens : List Text} (h : Fails (readConjunction tokens)) :
    Fails (readConjunction (['!'] :: tokens)) := by
  rw [readConjunction_eq, fails_andThen] at h ⊢
  rw [readNegation_not, fails_andThen]
  rcases h with h | ⟨e, left, hr, h⟩
  · exact .inl (.inl h)
  · refine .inr ⟨.not e, left, ?_, h.conjuncts _⟩
    rw [hr, Reading.andThen_ok]

theorem Fails.conjuncts_and {tokens : List Text} (h : Fails (readConjunction tokens)) (e : Expr) :
    Fails (readConjuncts e ("-a".toList :: tokens)) := by
  rw [readConjunction_eq, fails_andThen] at h
  rw [readConjuncts_and, fails_andThen]
  rcases h with h | ⟨f, left, hr, h⟩
  · exact .inl h
  · exact .inr ⟨f, left, hr, h.conjuncts _⟩

theorem Fails.disjuncts_or {tokens : List Text} (h : Fails (readDisjunction tokens)) (e : Expr) :
    Fails (readDisjuncts e ("-o".toList :: tokens)) := by
  rw [readDisjunction_eq, fails_andThen] at h
  rw [readDisjuncts_or, fails_andThen]
  rcases h with h | ⟨f, left, hr, h⟩
  · exact .inl h
  · exact .inr ⟨f, left, hr, h.disjuncts _⟩

/-- The tokens that stand behind an operand where expressions are rendered. -/
def operandStops : List Text := [[')'], "-o".toList, "-a".toList]

/-- Nothing is read where an operand should be and something stands that comes behind one. -/
theorem fails_readConjunction_of_stop {left : List Text}
    (h : ∀ token ∈ left.head?, token ∈ operandStops) : Fails (readConjunction left) := by
  rw [readConjunction_eq, fails_andThen]
  refine .inl ?_
  rcases left with _ | ⟨token, left⟩
  · exact ⟨_, readNegation_nil⟩
  · -- none of these starts a test, a negation or a group
    have ht : token ∈ operandStops := h token rfl
    simp only [operandStops, List.mem_cons, List.not_mem_nil, or_false] at ht
    refine ⟨.unknownToken token, ?_⟩
    rw [readNegation_cons (by rcases ht with rfl | rfl | rfl <;> decide)]
    apply readTest_unknown <;> rcases ht with rfl | rfl | rfl <;> decide

/-- The tokens of an expression do not start with a closing parenthesis. -/
theorem head?_tokens_ne {e : Expr} (hp : e.isPlain = true) :
    ∀ token ∈ e.tokens.head?, token ≠ [')'] := by
  have operand : ∀ {e : Expr}, (∀ token ∈ e.tokens.head?, token ≠ [')']) →
      ∀ {token}, token ∈ (operandTokens e e.tokens).head? → token ≠ [')'] := by
    intro e h token ht
    unfold operandTokens at ht
    split at ht
    · obtain rfl : ['('] = token := by simpa using ht
      decide
    · exact h token ht
  induction e with
  | always => exact fun token ht => nomatch ht
  | foreign v => cases hp
  | and l r ihl ihr =>
    simp only [isPlain, Bool.and_eq_true] at hp
    intro token ht
    simp only [Expr.tokens, List.head?_append, Option.mem_def, Option.or_eq_some_iff] at ht
    rcases ht with ht | ⟨-, ht⟩
    · exact operand (ihl hp.1) ht
    · obtain rfl : "-a".toList = token := by simpa using ht
      decide
  | or l r ihl ihr =>
    simp only [isPlain, Bool.and_eq_true] at hp
    intro token ht
    simp only [Expr.tokens, List.head?_append, Option.mem_def, Option.or_eq_some_iff] at ht
    rcases ht with ht | ⟨-, ht⟩
    · exact ihl hp.1 token ht
    · obtain rfl : "-o".toList = token := by simpa using ht
      decide
  | _ =>
    intro token ht
    simp only [Expr.tokens, List.head?_cons, Option.mem_def, Option.some.injEq] at ht
    subst ht
    decide

/-- Where a disjunction is not read, neither is the list of terms that consists of it. -/
theorem Fails.expressions {e : Expr} {left : List Text} (hp : e.isPlain = true)
    (hne : e.tokens ≠ []) (h : Fails (readDisjunction (e.tokens ++ left))) :
    Fails (readExpressions .always (e.tokens ++ left)) := by
  have ht := head?_tokens_ne hp
  obtain ⟨token, rest, htr⟩ := List.exists_cons_of_ne_nil hne
  rw [htr] at h ht ⊢
  rw [List.cons_append, readExpressions_cons _ (ht token rfl)]
  exact fails_andThen.mpr (.inl h)

/-- The tokens of an expression are read neither as an operand nor as a disjunction. -/
structure Unreadable (e : Expr) : Prop where
  operand : ∀ left, (∀ token ∈ left.head?, token ∈ operandStops) →
    Fails (readConjunction (operandTokens e e.tokens ++ left))
  disjunction : ∀ left, Level.conjunction.Ends left → Fails (readDisjunction (e.tokens ++ left))

/-- An expression that is no disjunction is unreadable in both places when it is as an operand. -/
theorem Unreadable.of_operand {e : Expr} (hd : e.isDisjunction = false)
    (h : ∀ left, (∀ token ∈ left.head?, token ∈ operandStops) →
      Fails (readConjunction (e.tokens ++ left))) : Unreadable e where
  operand := by simpa [operandTokens, hd] using h
  disjunction left hl := by
    rw [readDisjunction_eq]
    refine fails_andThen.mpr (.inl (h left fun token ht => ?_))
    have hm : token = [')'] ∨ token = "-o".toList := by
      simpa [Level.stops] using (hl.resolve_left (by decide)).resolve_left (by decide) token ht
    rcases hm with rfl | rfl <;> decide

/-- An expression with an empty part is unreadable, however deep that part lies. -/
theorem unreadable {e : Expr} (hp : e.isPlain = true) (hg : e.isGapless = false) :
    Unreadable e := by
  induction e with
  | always => exact .of_operand rfl fun left hl => fails_readConjunction_of_stop hl
  | not e ih =>
    exact .of_operand rfl fun left hl => ((ih hp hg).operand left hl).conjunction_not
  | and l r ihl ihr =>
    simp only [isPlain, isGapless, Bool.and_eq_true, Bool.and_eq_false_iff] at hp hg
    refine .of_operand rfl fun left hl => ?_
    -- the left operand is not read, or it is and the right one is not
    cases hgl : l.isGapless with
    | false =>
      simpa [tokens] using (ihl hp.1 hgl).operand
        ("-a".toList :: (operandTokens r r.tokens ++ left)) (by simp [operandStops])
    | true =>
      have hs := (respelled hp.1 hgl).operand [] id fun us f hf => .conjunct hf
      have hr : readConjunction (operandTokens l l.tokens ++
          "-a".toList :: (operandTokens r r.tokens ++ left)) = _ := read_append hs _ trivial
      have hf := (ihr hp.2 (hg.resolve_left (by simp [hgl]))).operand left hl
      rw [Expr.tokens, List.append_assoc, List.cons_append, hr]
      exact hf.conjuncts_and _
  | or l r ihl ihr =>
    have hp' := hp
    simp only [isPlain, isGapless, Bool.and_eq_true, Bool.and_eq_false_iff] at hp hg
    have hd : ∀ left, Level.conjunction.Ends left →
        Fails (readDisjunction ((or l r).tokens ++ left)) := by
      intro left hl
      cases hgl : l.isGapless with
      | false =>
        simpa [tokens] using (ihl hp.1 hgl).disjunction ("-o".toList :: (r.tokens ++ left))
          (.inr (.inr (by simp [Level.stops])))
      | true =>
        have hs := (respelled hp.1 hgl).disjunction [] id fun us f hf => .disjunct hf
        have hr : readDisjunction (l.tokens ++ "-o".toList :: (r.tokens ++ left)) = _ :=
          read_append hs _ (.inr (.inr (by simp [Level.stops])))
        have hf := (ihr hp.2 (hg.resolve_left (by simp [hgl]))).disjunction left hl
        rw [Expr.tokens, List.append_assoc, List.cons_append, hr]
        exact hf.disjuncts_or _
    refine ⟨fun left _ => ?_, hd⟩
    -- as an operand it stands in parentheses, and what these hold is not read
    have hf := (hd ([')'] :: left) (.inr (.inr (by simp [Level.stops])))).expressions hp'
      (by simp [tokens])
    have hn : Fails (readNegation (['('] :: ((or l r).tokens ++ [')'] :: left))) := by
      rw [readNegation_cons (by decide), readTest_open]
      exact fails_andThen.mpr (.inl hf)
    have hc : Fails (readConjunction (['('] :: ((or l r).tokens ++ [')'] :: left))) := by
      rw [readConjunction_eq]
      exact fails_andThen.mpr (.inl hn)
    simpa [operandTokens, isDisjunction] using hc
  | foreign v => cases hp
  | _ => cases hg

end Query

namespace Expr

open Query

/-- **What the tokens of an expression are read as, and when they are**: either there are none, or
no part of the expression is empty. -/
theorem parse_tokens_eq_ok_iff {e e' : Expr} (hp : e.isPlain = true) :
    parse e.tokens = .ok e' ↔ (e = always ∨ e.isGapless = true) ∧ e' = e.reread := by
  -- no tokens at all are read, though an empty part is not
  by_cases ha : e = always
  · subst ha
    have hr : readExpressions always (tokens always) = .ok (always, []) := readExpressions_nil _
    rw [parse_eq_ok, hr]
    constructor
    · intro h
      cases h
      exact ⟨.inl rfl, rfl⟩
    · rintro ⟨-, rfl⟩
      rfl
  cases hg : e.isGapless with
  | true =>
    have hs := (respelled hp hg).disjunction [] id fun us f hf => .disjunct hf
    rw [onDisjunct_id] at hs
    have hr : parse e.tokens = .ok e.reread := parse_eq_ok_iff.mpr (.term hs)
    simp [hr, eq_comm]
  | false =>
    have hne : e.tokens ≠ [] := by
      cases e <;> simp_all [tokens, isPlain]
    have hf : Fails (readExpressions always (e.tokens ++ [])) :=
      Fails.expressions hp hne ((unreadable hp hg).disjunction [] (.inr (.inr (by simp))))
    obtain ⟨err, he⟩ := hf
    rw [List.append_nil] at he
    simp [parse_eq_ok, he, ha]

/-! ## What is kept of the meaning -/

/-- The expression is a conjunction. -/
def isConjunction : Expr → Bool
  | and .. => true
  | _ => false

/-- No negation in the expression stands right before a conjunction. -/
def negatesNoConjunction : Expr → Bool
  | not e => !e.isConjunction && e.negatesNoConjunction
  | and l r | or l r => l.negatesNoConjunction && r.negatesNoConjunction
  | _ => true

variable {k : Kind} {entry : Entry}

/-- Operands may be joined to a conjunction one by one. -/
theorem evaluate_onConjunct_and (a e : Expr) :
    (onConjunct (and a) e).evaluate k entry = (and a e).evaluate k entry := by
  induction e with
  | and l r ihl =>
    simp only [onConjunct, evaluate] at ihl ⊢
    rw [ihl]
    rcases a.evaluate k entry with err | _ | _ <;> rfl
  | _ => rfl

/-- Operands may be joined to a disjunction one by one. -/
theorem evaluate_onDisjunct_or (a e : Expr) :
    (onDisjunct (or a) e).evaluate k entry = (or a e).evaluate k entry := by
  induction e with
  | or l r ihl =>
    simp only [onDisjunct, evaluate] at ihl ⊢
    rw [ihl]
    rcases a.evaluate k entry with err | _ | _ <;> rfl
  | _ => rfl

/-- Reading an expression again keeps whether it is a conjunction, unless one is negated. -/
theorem isConjunction_reread {e : Expr} (h : e.negatesNoConjunction = true) :
    e.reread.isConjunction = e.isConjunction := by
  induction e with
  | not e ih =>
    simp only [negatesNoConjunction, Bool.and_eq_true, Bool.not_eq_true'] at h
    have hc : e.reread.isConjunction = false := (ih h.2).trans h.1
    cases he : e.reread <;> simp_all [reread, onConjunct, isConjunction]
  | and l r => cases he : r.reread <;> simp [reread, onConjunct, isConjunction, he]
  | or l r => cases he : r.reread <;> simp [reread, onDisjunct, isConjunction, he]
  | _ => rfl

/-- **Reading an expression again keeps its meaning** unless a conjunction is negated. -/
theorem evaluate_reread {e : Expr} (h : e.negatesNoConjunction = true) :
    e.reread.evaluate k entry = e.evaluate k entry := by
  induction e with
  | not e ih =>
    simp only [negatesNoConjunction, Bool.and_eq_true, Bool.not_eq_true'] at h
    -- nothing but a conjunction would let the negation slip inside
    have hc : e.reread.isConjunction = false := (isConjunction_reread h.2).trans h.1
    have hn : onConjunct not e.reread = not e.reread := by
      cases he : e.reread <;> simp_all [onConjunct, isConjunction]
    rw [reread, hn, evaluate, ih h.2, evaluate]
  | and l r ihl ihr =>
    simp only [negatesNoConjunction, Bool.and_eq_true] at h
    rw [reread, evaluate_onConjunct_and, evaluate, ihl h.1, ihr h.2, evaluate]
  | or l r ihl ihr =>
    simp only [negatesNoConjunction, Bool.and_eq_true] at h
    rw [reread, evaluate_onDisjunct_or, evaluate, ihl h.1, ihr h.2, evaluate]
  | _ => rfl

end Expr

namespace Query

open DirectoryListing.Expr

/-! ## Rendered queries -/

/-- The arguments of the name tests among some tokens, from left to right. The argument of a test is
not looked at, whatever it is. -/
def nameArguments : List Text → List Text
  | first :: argument :: rest =>
    if first = "-name".toList then argument :: nameArguments rest
    else if first = "-type".toList ∨ first = "-size".toList then nameArguments rest
    else nameArguments (argument :: rest)
  | _ => []

/-- Any other token is passed over. -/
theorem nameArguments_cons {token : Text}
    (h : token ∉ ["-name".toList, "-type".toList, "-size".toList]) (rest : List Text) :
    nameArguments (token :: rest) = nameArguments rest := by
  simp only [List.mem_cons, List.not_mem_nil, or_false, not_or] at h
  rcases rest with _ | ⟨argument, rest⟩
  · simp [nameArguments]
  · rw [nameArguments, if_neg h.1, if_neg (not_or.mpr h.2)]

/-- The patterns of an expression are the arguments of the name tests that spell it. -/
theorem nameArguments_append {adjacent : Bool} {level : Level} {ts : List Text} {e : Expr}
    (h : Spells adjacent level ts e) (rest : List Text) :
    nameArguments (ts ++ rest) = e.patterns ++ nameArguments rest := by
  -- by the derivation: a group has two tokens of its own, an operator or a negation has one
  induction h generalizing rest with
  | nothing => rfl
  | term _ ih | disjunct _ ih | conjunct _ ih | test _ ih => exact ih rest
  | @adjoin ts us e f _ _ _ ihe ihf =>
    have hj : (juxtapose e f).patterns = e.patterns ++ f.patterns := by
      cases e <;> rfl
    rw [List.append_assoc, ihe, ihf, hj, List.append_assoc]
  | or _ _ ihe ihf | and _ _ ihe ihf =>
    rw [List.append_assoc, List.cons_append, ihe,
      nameArguments_cons (by decide), ihf, patterns, List.append_assoc]
  | beside _ _ ihe ihf => rw [List.append_assoc, ihe, ihf, patterns, List.append_assoc]
  | not _ ih =>
    exact (nameArguments_cons (by decide) _).trans (ih rest)
  | name pattern => simp [nameArguments, patterns]
  | kind k => simp [nameArguments, patterns]
  | size side => simp [nameArguments, patterns]
  | parentheses _ ih =>
    rw [List.cons_append, nameArguments_cons (by decide), List.append_assoc, ih]
    exact congrArg _ (nameArguments_cons (by decide) rest)

theorem isPlain_of_spells {adjacent : Bool} {level : Level} {ts : List Text} {e : Expr}
    (h : Spells adjacent level ts e) : e.isPlain = true := by
  induction h with
  | @adjoin ts us e f _ _ _ ihe ihf => cases e <;> simp_all [juxtapose, isPlain]
  | size => exact decide_eq_true (Int.natCast_nonneg _)
  | _ => simp_all [isPlain]

/-- **When a rendered query means the same.** The tokens of the rendered text are read exactly when
the query is empty or no part of it is, and always as `Expr.reread` says; so they mean the same
exactly when that does, as it does if no conjunction is negated. -/
theorem parse_tokens_render {tokens : List Text} {e : Expr} (h : parse tokens = .ok e)
    (hn : ∀ p ∈ nameArguments tokens, p ≠ [] ∧ ∀ c ∈ p, isBlank c = false) :
    (∀ e', parse e.render.tokens = .ok e' ↔
      (e = .always ∨ e.isGapless = true) ∧ e' = e.reread) ∧
    ((∃ e', parse e.render.tokens = .ok e' ∧ ∀ n : Node, e'.holds n = e.holds n) ↔
      (e = .always ∨ e.isGapless = true) ∧ ∀ n : Node, e.reread.holds n = e.holds n) ∧
    (e.negatesNoConjunction = true → ∀ n : Node, e.reread.holds n = e.holds n) := by
  have hs := parse_eq_ok_iff.mp h
  have hpat : nameArguments tokens = e.patterns := by
    simpa [nameArguments] using nameArguments_append hs []
  have ht : e.render.tokens = e.tokens := tokens_render (hpat ▸ hn)
  have hr : ∀ e', parse e.render.tokens = .ok e' ↔
      (e = .always ∨ e.isGapless = true) ∧ e' = e.reread := fun e' => by
    rw [ht]
    exact parse_tokens_eq_ok_iff (isPlain_of_spells hs)
  refine ⟨hr, ?_, fun hc n => evaluate_reread hc⟩
  constructor
  · rintro ⟨e', he, hm⟩
    obtain ⟨hg, rfl⟩ := (hr e').mp he
    exact ⟨hg, hm⟩
  · rintro ⟨hg, hm⟩
    exact ⟨_, (hr _).mpr ⟨hg, rfl⟩, hm⟩

/-- A conjunction of a disjunction and a test means the same when it is rendered. -/
theorem parse_tokens_render_conjunction :
    parse [['('], "-name".toList, ['a'], "-o".toList, ['!'], "-type".toList, ['d'], [')'],
      "-size".toList, "+3".toList] =
        .ok (.and (.or (.name ['a']) (.not (.kind .directory))) (.size .gt 3)) ∧
    ∃ e', parse (Expr.render
        (.and (.or (.name ['a']) (.not (.kind .directory))) (.size .gt 3))).tokens = .ok e' ∧
      ∀ n : Node, e'.holds n =
        Expr.holds (.and (.or (.name ['a']) (.not (.kind .directory))) (.size .gt 3)) n := by
  have hd : Spells false .disjunction _ (.or (.name ['a']) (.not (.kind .directory))) :=
    .or (.disjunct (.conjunct (.test (.name ['a'])))) (.conjunct (.not (.test (.kind .directory))))
  have hs : Spells false .test ["-size".toList, "+3".toList] (.size .gt 3) :=
    @Spells.size false .gt ['3'] (by decide) (by decide)
  have hp := parse_eq_ok_iff.mpr
    (.term (.disjunct (.beside (.conjunct (.test (.parentheses (.term hd)))) (.test hs))))
  have hn : ∀ p ∈ [['a']], p ≠ [] ∧ ∀ c ∈ p, isBlank c = false := by
    rw [List.forall_mem_singleton, List.forall_mem_singleton]
    decide
  obtain ⟨-, hm, hc⟩ := parse_tokens_render hp hn
  exact ⟨hp, hm.mpr ⟨.inr rfl, hc rfl⟩⟩

/-- Rendering does not keep the meaning of every query: what `! ( -type f -size 5 )` is rendered as
is read as a conjunction of a negation and a test, which does not hold of a directory of another
size. -/
theorem not_forall_parse_tokens_render :
    ¬ ∀ (tokens : List Text) (e : Expr), parse tokens = .ok e →
      (∀ p ∈ nameArguments tokens, p ≠ [] ∧ ∀ c ∈ p, isBlank c = false) →
      ∃ e', parse e.render.tokens = .ok e' ∧ ∀ n : Node, e'.holds n = e.holds n := by
  intro h
  have hs : Spells false .test ["-size".toList, ['5']] (.size .eq 5) :=
    @Spells.size false .eq ['5'] (by decide) (by decide)
  have hc : Spells false .conjunction _ (.and (.kind .file) (.size .eq 5)) :=
    .beside (.conjunct (.test (.kind .file))) (.test hs)
  have hp := parse_eq_ok_iff.mpr
    (.term (.disjunct (.conjunct (.not (.test (.parentheses (.term (.disjunct hc))))))))
  obtain ⟨e', hr, hm⟩ := h _ _ hp (by decide)
  rw [tokens_render (by simp [patterns]), parse_tokens_eq_ok_iff rfl] at hr
  obtain ⟨-, rfl⟩ := hr
  have hd : (.ok false : Except NotAnExpression Bool) = .ok true :=
    hm (.top 0 (.directory ⟨[], ['d'], 3⟩ []))
  cases hd

end Query

end DirectoryListing
