import DirectoryListing.Text.Blank

/-!
# Lines and their ends

A text of lines that were printed one after the other splits into these lines again. What is left of
a line without its end tells as well as the whole line whether it is blank.

## Main definitions

* `Text.IsLine line`: no line feed but at the end
* `Text.Apart a b`: two texts that differ at some place

## Main results

* `Text.isLine_of_mem_lines`: the lines of a text are lines
* `Text.lines_flatMap`: the lines of a text are those it was made of
* `Text.isBlank_withoutLineEnd`: the line end of a line has no part in whether it is blank
* `Text.withoutLineEnd_append`: a line without a line end of its own
-/

namespace DirectoryListing.Text

variable {t : Text} {ts : List Text}

/-! ## The lines of a text -/

theorem lines_append (ht : '\n' ∉ t) (u : Text) :
    lines (t ++ '\n' :: u) = (t ++ ['\n']) :: lines u := by
  induction t with
  | nil => rw [List.nil_append, lines, if_pos rfl, List.nil_append]
  | cons c t ih =>
    obtain ⟨hc, ht⟩ := List.ne_and_not_mem_of_not_mem_cons ht
    rw [List.cons_append, lines, if_neg (Ne.symm hc), ih ht]
    rfl

/-- **The lines of a text** are those it was made of. -/
theorem lines_flatMap (h : ∀ t ∈ ts, '\n' ∉ t) :
    lines (ts.flatMap (· ++ ['\n'])) = ts.map (· ++ ['\n']) := by
  induction ts with
  | nil => rfl
  | cons t ts ih =>
    obtain ⟨ht, hts⟩ := List.forall_mem_cons.mp h
    rw [List.flatMap_cons, List.append_assoc, List.singleton_append, lines_append ht, ih hts,
      List.map_cons]

/-- A line: a text without a line feed, but for one that it may end in. -/
def IsLine (line : Text) : Prop :=
  ∃ t, '\n' ∉ t ∧ (line = t ∨ line = t ++ ['\n'])

theorem isLine_of_mem_lines {line : Text} (h : line ∈ t.lines) : line.IsLine := by
  induction t generalizing line with
  | nil => cases h
  | cons c t ih =>
    rw [lines] at h
    split at h
    · rcases List.mem_cons.mp h with rfl | h
      · exact ⟨[], List.not_mem_nil, .inr rfl⟩
      · exact ih h
    · rename_i hc
      split at h
      · rw [List.mem_singleton.mp h]
        exact ⟨[c], by simpa using Ne.symm hc, .inl rfl⟩
      · rename_i first rest hs
        rcases List.mem_cons.mp h with rfl | h
        · obtain ⟨u, hu, hline⟩ := ih (hs ▸ List.mem_cons_self)
          refine ⟨c :: u, List.not_mem_cons_of_ne_of_not_mem (Ne.symm hc) hu, ?_⟩
          rcases hline with rfl | rfl
          · exact .inl rfl
          · exact .inr rfl
        · exact ih (hs ▸ List.mem_cons_of_mem _ h)

theorem mem_append_iff {c : Char} {s : Text} (hs : c ∉ s) : c ∈ s ++ t ↔ c ∈ t := by
  rw [List.mem_append]
  exact or_iff_right hs

/-! ## Prefixes -/

/-- Neither text starts with the other: they differ at some place. -/
def Apart (a b : Text) : Prop := ¬ a <+: b ∧ ¬ b <+: a

instance (a b : Text) : Decidable (Apart a b) := inferInstanceAs (Decidable (_ ∧ _))

/-- Two texts that differ do so whatever one of them goes on with. -/
theorem Apart.append {a b : Text} (h : a.Apart b) (u : Text) : a.Apart (b ++ u) := by
  constructor
  · intro hu
    rcases List.prefix_or_prefix_of_prefix hu (List.prefix_append b u) with hab | hba
    · exact h.1 hab
    · exact h.2 hba
  · intro hu
    exact h.2 ((List.prefix_append b u).trans hu)

/-- A text without a line feed at the start of some lines is at the start of the first one. -/
theorem prefix_of_prefix_lineFeed {a b u : Text} (ha : '\n' ∉ a) (h : a <+: b ++ '\n' :: u) :
    a <+: b := by
  induction a generalizing b with
  | nil => exact List.nil_prefix
  | cons c a ih =>
    obtain ⟨hc, ha⟩ := List.ne_and_not_mem_of_not_mem_cons ha
    cases b with
    | nil => exact absurd (List.cons_prefix_cons.mp h).1.symm hc
    | cons d b =>
      obtain ⟨rfl, hrest⟩ := List.cons_prefix_cons.mp h
      exact List.cons_prefix_cons.mpr ⟨rfl, ih ha hrest⟩

/-- What starts with a line, and with another one, starts with the same line twice. -/
theorem eq_of_line_prefix {a b u : Text} (ha : '\n' ∉ a) (hb : '\n' ∉ b)
    (h : a ++ ['\n'] <+: b ++ '\n' :: u) : a = b := by
  obtain ⟨v, rfl⟩ := prefix_of_prefix_lineFeed ha ((List.prefix_append a ['\n']).trans h)
  rw [List.append_assoc, List.prefix_append_right_inj] at h
  cases v with
  | nil => rw [List.append_nil]
  | cons c v =>
    obtain ⟨rfl, -⟩ := List.cons_prefix_cons.mp h
    exact absurd (by simp) hb

/-! ## Line ends -/

/-- A text that does not end in a line end is what is left of its line. -/
theorem withoutLineEnd_append (h : ∀ c ∈ t.getLast?, isLineEnd c = false) :
    withoutLineEnd (t ++ ['\n']) = t := by
  -- seen from its end, the text starts with a character that stays
  have stop : t.reverse.dropWhile isLineEnd = t.reverse := by
    rw [← List.head?_reverse] at h
    cases ht : t.reverse with
    | nil => rfl
    | cons c u =>
      rw [ht] at h
      rw [List.dropWhile_cons_of_neg]
      simp [h c rfl]
  have line : isLineEnd '\n' = true := rfl
  rw [withoutLineEnd, dropEndWhile, List.reverse_append, List.reverse_singleton,
    List.singleton_append, List.dropWhile_cons_of_pos line, stop, List.reverse_reverse]

theorem isBlank_append (t u : Text) : isBlank (t ++ u) = (isBlank t && isBlank u) :=
  List.all_append

/-- The line end of a line has no part in whether it is blank. -/
theorem isBlank_withoutLineEnd (t : Text) : t.withoutLineEnd.isBlank = t.isBlank := by
  have ends : (t.reverse.takeWhile isLineEnd).all DirectoryListing.isBlank = true := by
    have h := List.all_eq_true.mp (List.all_takeWhile (p := isLineEnd) (l := t.reverse))
    exact List.all_eq_true.mpr fun c hc => isBlank_of_isLineEnd (h c hc)
  calc t.withoutLineEnd.isBlank
      = (t.reverse.dropWhile isLineEnd).all DirectoryListing.isBlank := List.all_reverse
    _ = (t.reverse.takeWhile isLineEnd ++ t.reverse.dropWhile isLineEnd).all
          DirectoryListing.isBlank := by rw [List.all_append, ends, Bool.true_and]
    _ = t.isBlank := by rw [List.takeWhile_append_dropWhile, List.all_reverse, isBlank]

end DirectoryListing.Text
