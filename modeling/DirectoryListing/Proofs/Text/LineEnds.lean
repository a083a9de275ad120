import DirectoryListing.Encoding
import DirectoryListing.Proofs.Text.Lines

/-!
# The ends that a line may have

What is left of a line without its end does not depend on the end: it may be any run of carriage
returns and line feeds. A text in which each carriage return belongs to the end of a line keeps its
lines, up to their ends, when all ends are written as one line feed. Any other carriage return would
become the end of a line of its own.

## Main definitions

* `Text.ReturnsPaired t`: a line feed follows each carriage return

## Main results

* `Text.withoutLineEnd_append_ends`: a line with a longer end
* `Text.map_withoutLineEnd_unifiedLineEnds`: a text with its line ends written in one way
-/

namespace DirectoryListing.Text

variable {c : Char} {t u ends : Text}

/-! ## One line -/

/-- What is left of a line keeps its first character, unless this belongs to the end. -/
theorem withoutLineEnd_cons (c : Char) (t : Text) : withoutLineEnd (c :: t) =
    if withoutLineEnd t = [] ∧ isLineEnd c = true then [] else c :: withoutLineEnd t := by
  simp only [withoutLineEnd, dropEndWhile, List.reverse_cons, List.dropWhile_append,
    List.reverse_eq_nil_iff, List.isEmpty_iff]
  by_cases ht : t.reverse.dropWhile isLineEnd = []
  · cases hc : isLineEnd c <;> simp [ht, hc]
  · simp [ht]

/-- A line may have a longer end. -/
theorem withoutLineEnd_append_ends (h : ∀ c ∈ ends, isLineEnd c = true) (t : Text) :
    withoutLineEnd (t ++ ends) = withoutLineEnd t := by
  rw [withoutLineEnd, dropEndWhile, List.reverse_append,
    List.dropWhile_append_of_pos fun c hc => h c (List.mem_reverse.mp hc)]
  rfl

/-- A run of carriage returns and line feeds has no part in whether a line is blank. -/
theorem isBlank_append_ends (h : ∀ c ∈ ends, isLineEnd c = true) (t : Text) :
    isBlank (t ++ ends) = isBlank t := by
  rw [← isBlank_withoutLineEnd, withoutLineEnd_append_ends h, isBlank_withoutLineEnd]

/-! ## All lines -/

/-- Every carriage return has a line feed right after it. -/
def ReturnsPaired (t : Text) : Prop :=
  ∀ i : Nat, t[i]? = some '\r' → t[i + 1]? = some '\n'

theorem returnsPaired_cons :
    ReturnsPaired (c :: t) ↔ (c = '\r' → t.head? = some '\n') ∧ ReturnsPaired t := by
  constructor
  · intro h
    refine ⟨?_, fun i hi => h (i + 1) hi⟩
    rintro rfl
    simpa [List.head?_eq_getElem?] using h 0 rfl
  · rintro ⟨hc, ht⟩ i hi
    cases i with
    | zero => simpa [List.head?_eq_getElem?] using hc (by simpa using hi)
    | succ i => exact ht i hi

instance ReturnsPaired.decidable : (t : Text) → Decidable (ReturnsPaired t)
  | [] => .isTrue nofun
  | c :: t =>
    have := ReturnsPaired.decidable t
    decidable_of_iff ((c = '\r' → t.head? = some '\n') ∧ ReturnsPaired t) returnsPaired_cons.symm

/-- The lines of a text after one more character, which starts a line. -/
theorem map_withoutLineEnd_lines_cons
    (h : t.lines.map withoutLineEnd = u.lines.map withoutLineEnd) (c : Char) :
    (lines (c :: t)).map withoutLineEnd = (lines (c :: u)).map withoutLineEnd := by
  rw [lines, lines]
  split
  · rw [List.map_cons, List.map_cons, h]
  · cases ht : t.lines with
    | nil =>
      obtain hu : u.lines = [] := by simpa [ht] using h.symm
      rw [hu]
    | cons line rest =>
      rw [ht] at h
      obtain ⟨line', rest', hu, hline, hrest⟩ := List.map_eq_cons_iff.mp h.symm
      simp only [hu, List.map_cons, withoutLineEnd_cons, hline, hrest]

/-- **A text with its line ends written in one way** has the same lines up to their ends, if a line
feed follows each carriage return. -/
theorem map_withoutLineEnd_unifiedLineEnds (h : t.ReturnsPaired) :
    t.unifiedLineEnds.lines.map withoutLineEnd = t.lines.map withoutLineEnd := by
  induction t using unifiedLineEnds.induct with
  | case1 t ih =>
    -- the two characters of the end are dropped together
    have ht := (returnsPaired_cons.mp (returnsPaired_cons.mp h).2).2
    simp only [unifiedLineEnds, lines, reduceIte, List.map_cons, ih ht]
    rfl
  | case2 t hne ih =>
    -- a carriage return within a line
    obtain ⟨t', rfl⟩ := List.head?_eq_some_iff.mp ((returnsPaired_cons.mp h).1 rfl)
    exact absurd rfl (hne t')
  | case3 c t hpair hreturn ih =>
    have hc : unifiedLineEnds (c :: t) = c :: unifiedLineEnds t := by
      rw [unifiedLineEnds]
      · exact hpair
      · exact hreturn
    rw [hc]
    exact map_withoutLineEnd_lines_cons (ih (returnsPaired_cons.mp h).2) c
  | case4 => rfl

end DirectoryListing.Text
