import DirectoryListing.Proofs.Query.Rendering

/-!
# Queries in parentheses

Two queries can be joined to one. They stand in parentheses then, since their own operators may bind
more loosely; but a disjunction, which binds loosest of all, needs none around its two sides unless
one of them is empty.

With parentheses around every operand any expression can be spelled, and is read back as it was: an
operand that always holds has a spelling too, an empty pair of parentheses, and a pattern may be any
text, since the argument of a test is not looked at. A conjunction needs no operator between its
operands, so each `-a` may be left out for itself.

## Main definitions

* `Query.grouped tokens`: a query in parentheses
* `Expr.spelled keep e`: an expression with every operand in parentheses

## Main results

* `Query.exists_parse_or`: two queries with `-o` between them mean the disjunction of both
* `Query.parse_spelled`: a spelled expression is read back, whichever operators are left out
* `Query.exists_parse_iff`: queries spell the expressions without foreign parts and negative bounds
-/

namespace DirectoryListing

namespace Query

open DirectoryListing.Expr

variable {q r : List Text} {e f g : Expr} {adjacent : Bool}

/-! ## Joining queries -/

/-- A query in parentheses. -/
def grouped (tokens : List Text) : List Text :=
  ['('] :: (tokens ++ [[')']])

/-- A query in parentheses is an operand. -/
theorem Spells.grouped (h : Spells adjacent .expressions q e) :
    Spells adjacent .negation (grouped q) e :=
  .test (.parentheses h)

theorem spells_grouped (h : parse q = .ok e) : Spells false .negation (grouped q) e :=
  (parse_eq_ok_iff.mp h).grouped

theorem parse_of_spells (h : Spells false .conjunction q e) : parse q = .ok e :=
  parse_eq_ok_iff.mpr (.term (.disjunct h))

theorem parse_nil : parse [] = .ok .always :=
  parse_eq_ok_iff.mpr .nothing

theorem parse_not_grouped (hq : parse q = .ok e) : parse (['!'] :: grouped q) = .ok (.not e) :=
  parse_of_spells (.conjunct (.not (spells_grouped hq)))

theorem parse_and_grouped (hq : parse q = .ok e) (hr : parse r = .ok f) :
    parse (grouped q ++ "-a".toList :: grouped r) = .ok (.and e f) :=
  parse_of_spells (.and (.conjunct (spells_grouped hq)) (spells_grouped hr))

/-- Two queries in parentheses may also stand right next to each other. -/
theorem parse_beside_grouped (hq : parse q = .ok e) (hr : parse r = .ok f) :
    parse (grouped q ++ grouped r) = .ok (.and e f) :=
  parse_of_spells (.beside (.conjunct (spells_grouped hq)) (spells_grouped hr))

theorem parse_or_grouped (hq : parse q = .ok e) (hr : parse r = .ok f) :
    parse (grouped q ++ "-o".toList :: grouped r) = .ok (.or e f) :=
  parse_eq_ok_iff.mpr (.term (.or (.disjunct (.conjunct (spells_grouped hq)))
    (.conjunct (spells_grouped hr))))

/-- Disjunctions may be nested either way. -/
theorem evaluate_or_assoc (e f g : Expr) (k : Kind) (entry : Entry) :
    (Expr.or (.or e f) g).evaluate k entry = (Expr.or e (.or f g)).evaluate k entry := by
  simp only [evaluate]
  rcases e.evaluate k entry with err | _ | _ <;> rfl

/-- A disjunction behind another is read operand by operand, so that its first operands end up deep
inside; it means the same. -/
theorem exists_spells_or (he : Spells adjacent .disjunction q e)
    (hf : Spells adjacent .disjunction r f) :
    ∃ g, Spells adjacent .disjunction (q ++ "-o".toList :: r) g ∧
      ∀ k entry, g.evaluate k entry = (Expr.or e f).evaluate k entry := by
  generalize hl : Level.disjunction = level at hf
  induction hf with
  | disjunct hc => exact ⟨_, .or he hc, fun _ _ => rfl⟩
  | @or us vs f f' _ hc ih =>
    obtain ⟨g, hg, same⟩ := ih hl
    refine ⟨.or g f', by simpa using Spells.or hg hc, fun k entry => ?_⟩
    calc (Expr.or g f').evaluate k entry
        = (Expr.or (.or e f) f').evaluate k entry := by rw [evaluate, same, ← evaluate]
      _ = (Expr.or e (.or f f')).evaluate k entry := evaluate_or_assoc e f f' k entry
  | _ => cases hl

/-- What a query spells that is not empty, it spells as a disjunction. -/
theorem spells_disjunction_of_parse (h : parse q = .ok e) (hne : q ≠ []) :
    Spells false .disjunction q e := by
  have hs : Spells false .expressions q e := parse_eq_ok_iff.mp h
  cases hs with
  | nothing => exact absurd rfl hne
  | term hs => exact hs
  | adjoin ha => cases ha

/-- **Two queries with `-o` between them** mean the disjunction of both, without parentheses. -/
theorem exists_parse_or (hq : parse q = .ok e) (hr : parse r = .ok f) (hqne : q ≠ [])
    (hrne : r ≠ []) : ∃ g, parse (q ++ "-o".toList :: r) = .ok g ∧
      ∀ k entry, g.evaluate k entry = (Expr.or e f).evaluate k entry := by
  obtain ⟨g, hg, same⟩ := exists_spells_or (spells_disjunction_of_parse hq hqne)
    (spells_disjunction_of_parse hr hrne)
  exact ⟨g, parse_eq_ok_iff.mpr (.term hg), same⟩

end Query

/-! ## Spelling an expression -/

/-- The tokens of an expression with every operand in parentheses. A conjunction may lack the `-a`
between its operands; `keep` says which ones have it, by the way down to them, on which a step leads
to the first or only operand (`0`) or to the second (`1`). -/
def Expr.spelled (keep : List Nat → Bool) : Expr → List Text
  | always => Query.grouped []
  | name pattern => ["-name".toList, pattern]
  | kind k => ["-type".toList, [k.letter]]
  | size side bound => ["-size".toList, sizeSign side ++ Text.ofInt bound]
  | not e => ['!'] :: Query.grouped (e.spelled fun way => keep (0 :: way))
  | and l r =>
    Query.grouped (l.spelled fun way => keep (0 :: way)) ++
      (if keep [] then ["-a".toList] else []) ++
        Query.grouped (r.spelled fun way => keep (1 :: way))
  | or l r =>
    Query.grouped (l.spelled fun way => keep (0 :: way)) ++
      "-o".toList :: Query.grouped (r.spelled fun way => keep (1 :: way))
  | foreign v => [v.display]

namespace Query

open DirectoryListing.Expr

/-- A spelled expression is derived as a query, each of its operands standing in parentheses. -/
theorem spells_spelled {e : Expr} (h : e.isPlain = true) (keep : List Nat → Bool) :
    Spells false .expressions (e.spelled keep) e := by
  -- an operand is spelled as a query of its own, and its conjunctions are known by the way from it
  induction e generalizing keep with
  | always => exact .term (.disjunct (.conjunct (Spells.nothing.grouped)))
  | name pattern => exact .term (.disjunct (.conjunct (.test (.name pattern))))
  | kind k => exact .term (.disjunct (.conjunct (.test (.kind k))))
  | size side bound =>
    have bounded : 0 ≤ bound := by simpa [isPlain] using h
    exact .term (.disjunct (.conjunct (.test (spells_size side bounded))))
  | not e ih => exact .term (.disjunct (.conjunct (.not (ih h _).grouped)))
  | and l r ihl ihr =>
    simp only [isPlain, Bool.and_eq_true] at h
    have left := (ihl h.1 fun way => keep (0 :: way)).grouped
    have right := (ihr h.2 fun way => keep (1 :: way)).grouped
    rw [spelled]
    split
    · simpa using Spells.term (.disjunct (.and (.conjunct left) right))
    · simpa using Spells.term (.disjunct (.beside (.conjunct left) right))
  | or l r ihl ihr =>
    simp only [isPlain, Bool.and_eq_true] at h
    have left := (ihl h.1 fun way => keep (0 :: way)).grouped
    have right := (ihr h.2 fun way => keep (1 :: way)).grouped
    exact .term (.or (.disjunct (.conjunct left)) (.conjunct right))
  | foreign v => cases h

/-- **A spelled expression is read back**, whatever its patterns are and whichever of its `-a` are
left out. -/
theorem parse_spelled {e : Expr} (h : e.isPlain = true) (keep : List Nat → Bool) :
    parse (e.spelled keep) = .ok e :=
  parse_eq_ok_iff.mpr (spells_spelled h keep)

/-- What is neither a file nor named by a closing parenthesis, or else what has an empty name and
anything named by an operator. -/
def misleading : Expr :=
  .or (.not (.or (.kind .file) (.name [')']))) (.and (.and .always (.name [])) (.name "-o".toList))

/-- An expression whose patterns look like tokens of a query is read back, also without the outer
one of its two `-a`. -/
theorem parse_spelled_misleading :
    misleading.isPlain = true ∧
    parse [['('], ['!'], ['('], ['('], "-type".toList, ['f'], [')'], "-o".toList,
      ['('], "-name".toList, [')'], [')'], [')'], [')'], "-o".toList,
      ['('], ['('], ['('], ['('], [')'], [')'], "-a".toList, ['('], "-name".toList, [], [')'], [')'],
        ['('], "-name".toList, "-o".toList, [')'], [')']] = .ok misleading :=
  ⟨rfl, @parse_spelled misleading rfl fun way => way ≠ [1]⟩

/-- **Queries spell** the expressions that have no foreign parts and no negative bounds. -/
theorem exists_parse_iff {e : Expr} : (∃ tokens, parse tokens = .ok e) ↔ e.isPlain = true :=
  ⟨fun ⟨_, h⟩ => isPlain_of_spells (parse_eq_ok_iff.mp h),
    fun h => ⟨_, parse_eq_ok_iff.mpr (spells_spelled h fun _ => true)⟩⟩

end Query

end DirectoryListing
