import DirectoryListing.Proofs.Text.Lines
import DirectoryListing.Words

/-!
# Words before a line feed

A line feed at the end of a line ends the last word as any other blank does, and the words are those
of the line without it. It is different right behind a backslash: there the line feed is kept as a
character of the last word, although the line without it has no words at all.

The scan of a line is taken apart here into what one character does: it leads to another mode, and
adds something to the words of the rest.

## Main definitions

* `Words.step mode c`: the mode after a character, and what it adds to the words of the rest
* `Words.Fed r r'`: a line comes to `r'` with a line feed where it comes to `r` without
* `Words.EscapesEnd line`: the line feed at the end of the line is behind such a backslash

## Main results

* `Words.count_flatten_le`: words hold no character more often than the line
* `Words.fed_split`: what a line feed at the end of a line does
* `Words.eq_or_exists_of_isLine`: which words of a line hold a line feed
-/

namespace DirectoryListing.Words

variable {mode : Mode} {line t : Text} {words : List Text} {w : Text} {c d : Char}
  {r r' : Except Error (List Text)}

/-! ## One character -/

/-- The mode after a character, and what the character adds to the words of the rest. -/
def step : Mode → Char → Mode × (List Text → List Text)
  | .between, c =>
    if isSeparator c then (.between, id)
    else if c = '\\' then (.escape, id)
    else if isQuotationMark c then (.quotation c, id)
    else (.word, push c)
  | .word, c =>
    if isSeparator c then (.between, ([] :: ·))
    else if c = '\\' then (.escape, id)
    else if isQuotationMark c then (.quotation c, id)
    else (.word, push c)
  | .quotation mark, c =>
    if c = mark then (.word, id)
    else if c = '\\' && mark = '\x22' then (.quotedEscape, id)
    else (.quotation mark, push c)
  | .escape, c => (.word, push c)
  | .quotedEscape, c =>
    if c = '\\' || c = '\x22' then (.quotation '\x22', push c)
    else (.quotation '\x22', push '\\' ∘ push c)

theorem map_id_eq (r : Except Error (List Text)) : r.map id = r := by
  cases r <;> rfl

/-- **One character** leads to another mode, and adds to the words of the rest. -/
theorem scan_cons (mode : Mode) (c : Char) (t : Text) :
    scan mode (c :: t) = (scan (step mode c).1 t).map (step mode c).2 := by
  cases mode with
  | between | word | quotation =>
    simp only [scan, step]
    -- where a character adds nothing, the words are those of the rest
    repeat' split
    all_goals first | exact (map_id_eq _).symm | rfl
  | escape => rfl
  | quotedEscape =>
    simp only [scan, step]
    split <;> rfl

/-- A character adds nothing, itself, the end of a word, or itself and the backslash before it. -/
theorem step_cases (mode : Mode) (c : Char) :
    (step mode c).2 = id ∨ (step mode c).2 = push c ∨ (step mode c).2 = ([] :: ·) ∨
      (step mode c).2 = push '\\' ∘ push c := by
  cases mode <;> unfold step <;> (repeat' split) <;> simp

/-- Only a quotation mark opens a quotation. -/
theorem step_ne_quotation (hm : mode ≠ .quotation d) (hd : isQuotationMark d = false) (c : Char) :
    (step mode c).1 ≠ .quotation d := by
  intro h
  cases mode <;> simp only [step] at h <;> (repeat' split at h) <;> cases h <;> simp_all
  all_goals cases hd

/-! ## Words come from the line -/

theorem flatten_push (c : Char) (words : List Text) :
    (push c words).flatten = c :: words.flatten := by
  cases words <;> rfl

theorem map_eq_ok {f : List Text → List Text} :
    r.map f = .ok words ↔ ∃ before, r = .ok before ∧ f before = words := by
  cases r <;> simp [Except.map]

/-- **Words hold no character more often than the line**, the backslash apart. -/
theorem count_flatten_le (hd : d ≠ '\\') (h : scan mode t = .ok words) :
    words.flatten.count d ≤ t.count d := by
  induction t generalizing mode words with
  | nil => cases mode <;> cases h <;> exact Nat.le_refl _
  | cons c t ih =>
    rw [scan_cons, map_eq_ok] at h
    obtain ⟨before, hb, rfl⟩ := h
    have hle := ih hb
    have hcons : t.count d ≤ (c :: t).count d := List.count_le_count_cons
    rcases step_cases mode c with hs | hs | hs | hs <;> rw [hs]
    · exact Nat.le_trans hle hcons
    · rw [flatten_push, List.count_cons, List.count_cons]
      exact Nat.add_le_add_right hle _
    · exact Nat.le_trans hle hcons
    · rw [Function.comp_apply, flatten_push, flatten_push, List.count_cons_of_ne (Ne.symm hd),
        List.count_cons, List.count_cons]
      exact Nat.add_le_add_right hle _

/-! ## A line feed at the end -/

/-- What a line comes to without a line feed and with one: the same words; an open quotation; or,
behind a backslash, an open quotation or words the last of which ends in the line feed. -/
inductive Fed : Except Error (List Text) → Except Error (List Text) → Prop
  | words (words : List Text) : Fed (.ok words) (.ok words)
  | quotation : Fed (.error .openQuotation) (.error .openQuotation)
  | quotedEscape : Fed (.error .openEscape) (.error .openQuotation)
  | escape (words : List Text) (last : Text) :
    Fed (.error .openEscape) (.ok (words ++ [last ++ ['\n']]))

theorem exists_push_eq (c : Char) (words : List Text) (w : Text) :
    ∃ words' w', push c (words ++ [w ++ ['\n']]) = words' ++ [w' ++ ['\n']] := by
  cases words with
  | nil => exact ⟨[], c :: w, rfl⟩
  | cons first words => exact ⟨(c :: first) :: words, w, rfl⟩

/-- What a character adds goes before the line feed. -/
theorem Fed.step (h : Fed r r') (mode : Mode) (c : Char) :
    Fed (r.map (step mode c).2) (r'.map (step mode c).2) := by
  cases h with
  | words words => exact .words _
  | quotation => exact .quotation
  | quotedEscape => exact .quotedEscape
  | escape words w =>
    have ends : ∃ words' w', (Words.step mode c).2 (words ++ [w ++ ['\n']]) =
        words' ++ [w' ++ ['\n']] := by
      rcases step_cases mode c with hs | hs | hs | hs <;> rw [hs]
      · exact ⟨words, w, rfl⟩
      · exact exists_push_eq c words w
      · exact ⟨[] :: words, w, rfl⟩
      · obtain ⟨words', w', h⟩ := exists_push_eq c words w
        rw [Function.comp_apply, h]
        exact exists_push_eq '\\' words' w'
    obtain ⟨words', w', h⟩ := ends
    have hmap : (Except.ok (words ++ [w ++ ['\n']])).map (Words.step mode c).2 =
        (.ok (words' ++ [w' ++ ['\n']]) : Except Error (List Text)) := congrArg Except.ok h
    rw [hmap]
    exact .escape words' w'

theorem fed_scan (hm : mode ≠ .quotation '\n') (t : Text) :
    Fed (scan mode t) (scan mode (t ++ ['\n'])) := by
  induction t generalizing mode with
  | nil =>
    cases mode with
    | between => exact .words []
    | word => exact .words [[]]
    | quotation mark =>
      have hmark : '\n' ≠ mark := fun h => hm (congrArg Mode.quotation h.symm)
      have : scan (.quotation mark) ['\n'] = .error .openQuotation := by
        rw [scan, if_neg hmark]
        rfl
      rw [List.nil_append, this]
      exact .quotation
    | escape => exact .escape [] []
    | quotedEscape => exact .quotedEscape
  | cons c t ih =>
    rw [List.cons_append, scan_cons, scan_cons]
    exact (ih (step_ne_quotation hm rfl c)).step mode c

/-- **A line feed at the end of a line** ends the last word, unless it is behind a backslash. -/
theorem fed_split (t : Text) : Fed (split t) (split (t ++ ['\n'])) :=
  fed_scan Mode.noConfusion t

/-- With a line feed at its end, no line ends in a backslash. -/
theorem split_append_ne_openEscape (t : Text) : split (t ++ ['\n']) ≠ .error .openEscape := by
  intro h
  have hfed := fed_split t
  rw [h] at hfed
  generalize split t = r at hfed
  cases hfed

/-- The line ends in a line feed that is behind a backslash. -/
def EscapesEnd (line : Text) : Prop :=
  ∃ t, line = t ++ ['\n'] ∧ split t = .error .openEscape

theorem escapesEnd_append : EscapesEnd (t ++ ['\n']) ↔ split t = .error .openEscape := by
  constructor
  · rintro ⟨u, h, hu⟩
    rwa [List.append_cancel_right h]
  · intro h
    exact ⟨t, rfl, h⟩

/-- A line with a backslash before its line feed. -/
def escapedLine : Text := ['x', '\\', '\n']

theorem escapesEnd_escapedLine : EscapesEnd escapedLine :=
  ⟨['x', '\\'], rfl, rfl⟩

/-- A line feed that is not behind a backslash makes no difference. -/
theorem split_append_of_not_escapesEnd (h : ¬ EscapesEnd (t ++ ['\n'])) :
    split (t ++ ['\n']) = split t := by
  rw [escapesEnd_append] at h
  have hfed := fed_split t
  revert hfed h
  generalize split t = r
  generalize split (t ++ ['\n']) = r'
  intro h hfed
  cases hfed with
  | words => rfl
  | quotation => rfl
  | quotedEscape => exact absurd rfl h
  | escape => exact absurd rfl h

/-- Words hold no line feed that the line does not hold. -/
theorem not_mem_of_not_mem (ht : '\n' ∉ t) (h : scan mode t = .ok words) :
    ∀ x ∈ words, '\n' ∉ x := by
  have hle := count_flatten_le (d := '\n') (by decide) h
  rw [List.count_eq_zero.mpr ht, Nat.le_zero, List.count_eq_zero] at hle
  exact fun x hx hn => hle (List.mem_flatten.mpr ⟨x, hx, hn⟩)

/-- **The words of a line** hold no line feed, unless it is behind a backslash at the end of the
line, and then it is the last character of the last word. -/
theorem eq_or_exists_of_isLine (hl : line.IsLine) (h : split line = .ok words) :
    (∀ x ∈ words, '\n' ∉ x) ∨ ∃ before last, words = before ++ [last ++ ['\n']] ∧
      (∀ x ∈ before, '\n' ∉ x) ∧ '\n' ∉ last ∧ EscapesEnd line := by
  obtain ⟨t, ht, rfl | rfl⟩ := hl
  · exact .inl (not_mem_of_not_mem ht h)
  by_cases he : EscapesEnd (t ++ ['\n'])
  · refine .inr ?_
    have hfed := fed_split t
    rw [escapesEnd_append.mp he, h] at hfed
    obtain ⟨before, last, rfl⟩ : ∃ before last, words = before ++ [last ++ ['\n']] := by
      cases hfed with
      | escape before last => exact ⟨before, last, rfl⟩
    -- the line has no other line feed than the one that the last word ends in
    have hle := count_flatten_le (d := '\n') (by decide) h
    have hcount : (before.flatten ++ last).count '\n' = 0 := by
      simp [List.count_append, List.count_eq_zero.mpr ht] at hle ⊢
      omega
    rw [List.count_eq_zero, List.mem_append, not_or] at hcount
    exact ⟨before, last, rfl, fun x hx hn => hcount.1 (List.mem_flatten.mpr ⟨x, hx, hn⟩),
      hcount.2, he⟩
  · rw [split_append_of_not_escapesEnd he] at h
    exact .inl (not_mem_of_not_mem ht h)

end DirectoryListing.Words
