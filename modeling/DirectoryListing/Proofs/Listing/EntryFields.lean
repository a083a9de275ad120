import DirectoryListing.Listing.Assembly
import DirectoryListing.Proofs.Listing.EntryPattern

/-!
# The fields of an entry line

A line is an entry line just when eight columns that hold what they should can be cut off it and a
name is left. The name is all that follows the blanks after the last column. It may hold blanks of its
own, also at its end; but a line that ends in the blanks after its last column still has a name if
there are two of them, which is the last one.

## Main definitions

* `EntryLine.IsTimeOrYear t`: what the last column may hold
* `EntryLine.Columns.Split c line name`: the columns of a line, and the name that they leave

## Main results

* `EntryLine.isWellFormed_iff`, `EntryLine.nameOf?_eq_some_iff`: what columns and names are
* `EntryLine.read?_eq_some_iff_split`: a line is read by its columns, whatever way a pattern tries
-/

namespace DirectoryListing

namespace EntryLine

variable {line t gap rest name : Text} {kind : Kind} {e : Entry} {c : Columns}

/-! ## Columns -/

/-- A time of day, with one or two digits for the hour and two for the minute, or a year of four. -/
def IsTimeOrYear (t : Text) : Prop :=
  (∃ hour minute, t = hour ++ ':' :: minute ∧ (hour.length = 1 ∨ hour.length = 2) ∧
    minute.length = 2 ∧ ∀ d ∈ hour ++ minute, isDecimalDigit d = true) ∨
  (t.length = 4 ∧ ∀ d ∈ t, isDecimalDigit d = true)

/-- The columns of a line, each a run of characters that are not blank and the run of blanks after
it, and the name that they leave: all the rest of the line, or else the last of at least two
blanks. -/
structure Columns.Split (c : Columns) (line name : Text) : Prop where
  columns : ∀ f ∈ c.fields, f.IsColumn
  links : ∀ d ∈ c.links.text, isDecimalDigit d = true
  size : ∀ d ∈ c.size.text, Text.isDigit d = true
  day : c.day.text.length ≤ 2 ∧ ∀ d ∈ c.day.text, isDecimalDigit d = true
  time : IsTimeOrYear c.time.text
  name : (line = c.characters ++ name ∧ name ≠ [] ∧ StartsPlain name) ∨
    (line = c.characters ∧ 2 ≤ c.time.gap.length ∧ ∃ blank, c.time.gap.getLast? = some blank ∧
      name = [blank])

theorem isTime_iff : isTime t = true ↔ ∃ hour minute, t = hour ++ ':' :: minute ∧
    (hour.length = 1 ∨ hour.length = 2) ∧ minute.length = 2 ∧
      ∀ d ∈ hour ++ minute, isDecimalDigit d = true := by
  constructor
  · intro h
    obtain ⟨hour, minute, rfl, hhour⟩ : ∃ hour minute, t = hour ++ ':' :: minute ∧ ':' ∉ hour := by
      by_contra hcolon
      rw [isTime_of_not_mem fun hmem => hcolon (List.eq_append_cons_of_mem hmem)] at h
      cases h
    rw [isTime_append hhour, Bool.and_eq_true, isDigits_iff, isDigits_iff] at h
    obtain ⟨⟨hle, hge, hdigits⟩, mle, mge, mdigits⟩ := h
    exact ⟨hour, minute, rfl, by omega, by omega, List.forall_mem_append.mpr ⟨hdigits, mdigits⟩⟩
  · rintro ⟨hour, minute, rfl, hhour, hminute, digits⟩
    obtain ⟨hdigits, mdigits⟩ := List.forall_mem_append.mp digits
    have first : isDigits 1 2 hour = true := isDigits_iff.mpr ⟨by omega, by omega, hdigits⟩
    have second : isDigits 2 2 minute = true := isDigits_iff.mpr ⟨by omega, by omega, mdigits⟩
    rw [isTime_append (not_mem_of_isDigits first (by decide)), first, second, Bool.and_true]

theorem isTimeOrYear_iff : isTimeOrYear t = true ↔ IsTimeOrYear t := by
  rw [isTimeOrYear_eq, Bool.or_eq_true, isTime_iff, isDigits_iff, IsTimeOrYear]
  refine or_congr_right ?_
  rw [← and_assoc]
  exact and_congr_left fun _ => ⟨fun h => Nat.le_antisymm h.2 h.1, fun h => by omega⟩

/-- **The columns hold what they should**, said in one way and in the other. -/
theorem isWellFormed_iff (hc : ∀ f ∈ c.fields, f.IsColumn) : c.IsWellFormed ↔
    (∀ d ∈ c.links.text, isDecimalDigit d = true) ∧ (∀ d ∈ c.size.text, Text.isDigit d = true) ∧
      (c.day.text.length ≤ 2 ∧ ∀ d ∈ c.day.text, isDecimalDigit d = true) ∧
      IsTimeOrYear c.time.text := by
  have some_text : ∀ f ∈ c.fields, 1 ≤ f.text.length := fun f hf =>
    List.length_pos_iff.mpr (hc f hf).text_ne_nil
  simp only [Columns.fields, List.forall_mem_cons] at some_text
  obtain ⟨-, links, -, -, size, -, day, -⟩ := some_text
  have links_iff : isCount c.links.text = true ↔ ∀ d ∈ c.links.text, isDecimalDigit d = true := by
    rw [isCount, isDigits_iff]
    exact ⟨fun h => h.2.2, fun h => ⟨links, Nat.le_refl _, h⟩⟩
  have size_iff : isSize c.size.text = true ↔ ∀ d ∈ c.size.text, Text.isDigit d = true := by
    rw [isSize, Bool.and_eq_true, List.all_eq_true]
    exact and_iff_right (by simpa using List.ne_nil_of_length_pos size)
  have day_iff : isDay c.day.text = true ↔
      c.day.text.length ≤ 2 ∧ ∀ d ∈ c.day.text, isDecimalDigit d = true := by
    rw [isDay, isDigits_iff]
    exact and_iff_right day
  rw [← links_iff, ← size_iff, ← day_iff, ← isTimeOrYear_iff]
  exact ⟨fun h => ⟨h.links, h.size, h.day, h.time⟩,
    fun h => ⟨hc, h.1, h.2.1, h.2.2.1, h.2.2.2⟩⟩

/-! ## Names -/

/-- **The name** is all that the columns leave, or else the last of at least two blanks. -/
theorem nameOf?_eq_some_iff (hgap : '\n' ∉ gap) (hrest : '\n' ∉ rest) :
    nameOf? gap rest = some name ↔ (name = rest ∧ rest ≠ []) ∨
      (rest = [] ∧ 2 ≤ gap.length ∧ ∃ blank, gap.getLast? = some blank ∧ name = [blank]) := by
  by_cases h : rest = []
  · subst h
    by_cases two : 2 ≤ gap.length
    · obtain ⟨before, blank, rfl⟩ : ∃ before blank, gap = before ++ [blank] :=
        ⟨_, _, (List.dropLast_concat_getLast (List.ne_nil_of_length_pos (by omega))).symm⟩
      have line : blank ≠ '\n' := by
        rintro rfl
        exact hgap (by simp)
      have last : nameOf? (before ++ [blank]) [] = some [blank] := by
        have some_before : 1 ≤ before.length := by simpa using two
        simp [nameOf?, some_before, line.symm]
      rw [last, List.getLast?_concat]
      constructor
      · intro hname
        exact .inr ⟨rfl, two, blank, rfl, (Option.some.inj hname).symm⟩
      · rintro (⟨-, hne⟩ | ⟨-, -, b, hb, rfl⟩)
        · exact absurd rfl hne
        · rw [Option.some.inj hb]
    · have none : nameOf? gap [] = none := by simp [nameOf?, two]
      rw [none]
      refine iff_of_false (Option.some_ne_none name).symm ?_
      rintro (⟨-, hne⟩ | ⟨-, hlen, -⟩)
      · exact hne rfl
      · exact two hlen
  · have whole : nameOf? gap rest = some rest := by simp [nameOf?, h, hrest]
    rw [whole, Option.some.injEq]
    exact ⟨fun hname => .inl ⟨hname.symm, h⟩, fun hname => by
      rcases hname with ⟨rfl, -⟩ | ⟨hnil, -⟩
      · rfl
      · exact absurd hnil h⟩

/-! ## The line -/

/-- What is cut off a text that stands on one line is columns, as far as it is complete. -/
theorem isColumn_of_mem_cut {n : Nat} {f : Field} (ht : '\n' ∉ t) (hf : f ∈ (cut n t).1)
    (complete : f.isComplete = true) : f.IsColumn := by
  induction n generalizing t with
  | zero => cases hf
  | succ n ih =>
    have parts := Field.first_append t
    rw [← parts, List.mem_append, List.mem_append] at ht
    obtain ⟨-, hgap, hrest⟩ : '\n' ∉ _ ∧ '\n' ∉ _ ∧ '\n' ∉ _ := by simpa only [not_or] using ht
    rw [cut_cons] at hf
    rcases List.mem_cons.mp hf with rfl | hf
    · simp only [Field.isComplete, Bool.and_eq_true, Bool.not_eq_true',
        List.isEmpty_eq_false_iff] at complete
      exact ⟨complete.1, fun c hc => not_isBlank_of_mem_wordOf hc, complete.2,
        List.all_eq_true.mp List.all_takeWhile, hgap⟩
    · exact ih hrest hf

/-- A line that is read is made of columns and what follows them. -/
theorem exists_columns_of_read? (hline : '\n' ∉ line) (h : read? line = some (kind, e)) :
    ∃ (c : Columns) (rest : Text), c.IsWellFormed ∧ StartsPlain rest ∧
      line = c.characters ++ rest := by
  rcases hcut : cut 8 line with ⟨fields, rest⟩
  have characters := flatMap_characters_cut 8 line
  have columns : ∀ f ∈ (cut 8 line).1, f.isComplete = true → f.IsColumn :=
    fun f hf => isColumn_of_mem_cut hline hf
  have plain : StartsPlain (cut 8 line).2 := by
    rw [cut_succ]
    exact startsPlain_dropWhile _
  rw [hcut] at characters columns plain
  rw [read?, hcut] at h
  -- reading goes on only if there are eight fields, and only if they hold what they should
  split at h
  · next permissions links owner team size month day time rest heq =>
    obtain ⟨rfl, rfl⟩ := Prod.mk.inj heq
    split at h
    · next ok =>
      simp only [Bool.and_eq_true, List.all_eq_true] at ok
      obtain ⟨⟨⟨⟨complete, hlinks⟩, hsize⟩, hday⟩, htime⟩ := ok
      exact ⟨⟨permissions, links, owner, team, size, month, day, time⟩, rest,
        ⟨fun f hf => columns f hf (complete f hf), hlinks, hsize, hday, htime⟩, plain,
        characters.symm⟩
    · cases h
  · cases h

/-- The columns of a line and the name that they leave, told by what follows the columns. -/
theorem split_iff (hline : '\n' ∉ line) : c.Split line name ↔ ∃ rest, c.IsWellFormed ∧
    StartsPlain rest ∧ line = c.characters ++ rest ∧ nameOf? c.time.gap rest = some name := by
  constructor
  · intro h
    have wellFormed : c.IsWellFormed :=
      (isWellFormed_iff h.columns).mpr ⟨h.links, h.size, h.day, h.time⟩
    have hgap : '\n' ∉ c.time.gap := (h.columns c.time (by simp [Columns.fields])).gap_line
    rcases h.name with ⟨hname, hne, plain⟩ | ⟨hname, last⟩
    · have hrest : '\n' ∉ name := fun hmem => hline (hname ▸ List.mem_append_right _ hmem)
      exact ⟨name, wellFormed, plain, hname, (nameOf?_eq_some_iff hgap hrest).mpr (.inl ⟨rfl, hne⟩)⟩
    · exact ⟨[], wellFormed, by decide, hname.trans (List.append_nil _).symm,
        (nameOf?_eq_some_iff hgap List.not_mem_nil).mpr (.inr ⟨rfl, last⟩)⟩
  · rintro ⟨rest, wellFormed, plain, hrest, hname⟩
    have hgap : '\n' ∉ c.time.gap :=
      (wellFormed.columns c.time (by simp [Columns.fields])).gap_line
    have hmem : '\n' ∉ rest := fun hmem => hline (hrest ▸ List.mem_append_right _ hmem)
    obtain ⟨links, size, day, time⟩ := (isWellFormed_iff wellFormed.columns).mp wellFormed
    refine ⟨wellFormed.columns, links, size, day, time, ?_⟩
    rcases (nameOf?_eq_some_iff hgap hmem).mp hname with ⟨rfl, hne⟩ | ⟨rfl, last⟩
    · exact .inl ⟨hrest, hne, plain⟩
    · exact .inr ⟨hrest.trans (List.append_nil _), last⟩

/-- A line is read when columns leave a name in it, and by these columns. -/
theorem read?_eq_some_iff (hline : '\n' ∉ line) : read? line = some (kind, e) ↔
    ∃ c : Columns, c.Split line e.name ∧ (kind = .directory ↔ line.head? = some 'd') ∧
      e.size = Text.toNat c.size.text ∧ e.line = line := by
  constructor
  · intro h
    obtain ⟨c, rest, wellFormed, plain, hrest⟩ := exists_columns_of_read? hline h
    have read := read?_characters_append wellFormed plain
    rw [← hrest, h] at read
    obtain ⟨name, hname, heq⟩ := Option.map_eq_some_iff.mp read.symm
    cases heq
    refine ⟨c, (split_iff hline).mpr ⟨rest, wellFormed, plain, hrest, hname⟩, ?_, rfl, rfl⟩
    split <;> simp_all
  · rintro ⟨c, hsplit, hkind, hsize, hself⟩
    obtain ⟨rest, wellFormed, plain, hrest, hname⟩ := (split_iff hline).mp hsplit
    have read := read?_characters_append wellFormed plain
    rw [← hrest, hname] at read
    have same : (if line.head? = some 'd' then Kind.directory else .file) = kind := by
      cases kind <;> simp_all
    rw [read, Option.map_some, same, ← hsize]
    obtain ⟨l, n, s⟩ := e
    cases hself
    rfl

/-- **An entry line is read by its columns**, and in no other way. Of a line without a line feed, the
pattern says what cutting off the fields says. It is an entry when columns that hold what they should
can be cut off it with a name left, and then it is a directory just when it begins with a `d`, its
size is that of its fifth column, and its name is the one left. When they cannot, reading stops with
the fault of this line and its number. -/
theorem read?_eq_some_iff_split (hline : '\n' ∉ line) :
    readPattern? line = read? line ∧
    (∀ kind e, read? line = some (kind, e) ↔ ∃ c : Columns, c.Split line e.name ∧
      (kind = .directory ↔ line.head? = some 'd') ∧ e.size = Text.toNat c.size.text ∧
        e.line = line) ∧
    ((¬ ∃ (c : Columns) (name : Text), c.Split line name) → ∀ number ls,
      let error := Listing.Error.malformed ⟨number, line⟩ .shape
      Listing.readEntries (⟨number, line⟩ :: ls) = .error error ∧
        error.fault = .malformedLine line (some number) "malformed listing line".toList) := by
  refine ⟨readPattern?_eq fun h => hline (List.mem_of_getLast? h),
    fun kind e => read?_eq_some_iff hline, fun none number ls => ?_⟩
  have unread : read? line = .none := by
    rcases h : read? line with _ | ⟨kind, e⟩
    · rfl
    · obtain ⟨c, hc, -⟩ := (read?_eq_some_iff hline).mp h
      exact absurd ⟨c, e.name, hc⟩ none
  exact ⟨by rw [Listing.readEntries, unread], rfl⟩

/-- A line that ends in blanks after its last column. -/
def endingInBlanks (count : Nat) : Text :=
  "drwxr-xr-x 1 root root 7 Jan 1 00:00".toList ++ List.replicate count ' '

/-- With two blanks at its end the line has a name, which is the second of them, and with one it has
none. -/
theorem read?_endingInBlanks :
    '\n' ∉ endingInBlanks 2 ∧
    read? (endingInBlanks 2) = some (.directory, ⟨endingInBlanks 2, [' '], 7⟩) ∧
    '\n' ∉ endingInBlanks 1 ∧
    ∀ number ls, Listing.readEntries (⟨number, endingInBlanks 1⟩ :: ls) =
      .error (.malformed ⟨number, endingInBlanks 1⟩ .shape) := by
  have two : '\n' ∉ endingInBlanks 2 := by decide
  have one : '\n' ∉ endingInBlanks 1 := by decide
  obtain ⟨-, iff_two, -⟩ := read?_eq_some_iff_split two
  obtain ⟨-, iff_one, stops⟩ := read?_eq_some_iff_split one
  have plain := Columns.isWellFormed_plain .directory 7
  have columns := plain.columns
  obtain ⟨links, size, day, time⟩ := (isWellFormed_iff columns).mp plain
  have last : Field.IsColumn ⟨"00:00".toList, [' ', ' ']⟩ :=
    ⟨by decide, (columns (Columns.plain .directory 7).time (by simp [Columns.fields])).text,
      by decide, List.all_eq_true.mp (by decide), by decide⟩
  refine ⟨two, (iff_two _ _).mpr
    ⟨{ Columns.plain .directory 7 with time := ⟨"00:00".toList, [' ', ' ']⟩ },
      ⟨?_, links, size, day, time, .inr ⟨by decide, by decide, ' ', rfl, rfl⟩⟩, by decide, by decide,
      rfl⟩, one, fun number ls => (stops ?_ number ls).1⟩
  · simp only [Columns.fields, List.forall_mem_cons] at columns ⊢
    exact ⟨columns.1, columns.2.1, columns.2.2.1, columns.2.2.2.1, columns.2.2.2.2.1,
      columns.2.2.2.2.2.1, columns.2.2.2.2.2.2.1, last, List.forall_mem_nil _⟩
  · rintro ⟨c, name, hsplit⟩
    have read := (iff_one (if (endingInBlanks 1).head? = some 'd' then .directory else .file)
      ⟨endingInBlanks 1, name, Text.toNat c.size.text⟩).mpr
        ⟨c, hsplit, by split <;> simp_all, rfl, rfl⟩
    have unread : read? (endingInBlanks 1) = none := by decide
    cases unread.symm.trans read

end EntryLine

end DirectoryListing
