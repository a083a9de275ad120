import DirectoryListing.Proofs.Listing.ColumnPatterns

/-!
# The pattern of an entry line

An entry line can be told by one pattern: eight columns with runs of blanks after them, and a name up
to the end of the line. Up to the last column there is one way to match it at most. Only the blanks
before the name may be divided in more ways than one: they leave the last of them to the name if
nothing else is left for it. So the pattern says what cutting off the fields says.

## Main definitions

* `EntryLine.pattern`: the pattern of an entry line, with the parts that are looked at
* `EntryLine.readPattern? line`: what a line says, read by its pattern

## Main results

* `EntryLine.head?_ways_name`: the blanks before the name, and the name
* `EntryLine.groups_match?`: how columns, a time or year and a name match a line
* `EntryLine.readPattern?_eq`: the pattern says what cutting off the fields says
-/

namespace DirectoryListing.EntryLine

open Pattern (run seq group ending)

/-! ## The pattern -/

/-- The name, up to the end of the line. -/
def nameToEnd : Pattern Part :=
  seq (group .name (run (· ≠ '\n') 1 none)) ending

/-- The pattern of an entry line: permissions, link count, owner, group, size, month, day, time or
year, and name. -/
def pattern : Pattern Part :=
  columns [permissions, run isDecimalDigit 1 none, word, word,
    group .size (run Text.isDigit 1 none), word, run isDecimalDigit 1 (some 2), timeOrYear] nameToEnd

/-- What the parts of a line say. -/
def ofParts (line : Text) (parts : List (Part × Text)) : Option (Kind × Entry) :=
  match parts.lookup .type, parts.lookup .size, parts.lookup .name with
  | some type, some size, some name =>
    some (if type = ['d'] then .directory else .file, ⟨line, name, Text.toNat size⟩)
  | _, _, _ => none

/-- What a line says, read by its pattern. -/
def readPattern? (line : Text) : Option (Kind × Entry) :=
  (pattern.match? line).bind fun m => ofParts line m.groups

variable {t u : Text}

/-! ## The name -/

/-- The name at the end of a line is all that is left, if something is, and on one line. -/
theorem ways_nameToEnd (h : t.getLast? ≠ some '\n') : nameToEnd.ways t =
    if t.isEmpty || t.contains '\n' then [] else [⟨t, [(.name, t)], []⟩] := by
  have ways : nameToEnd.ways t = (Pattern.runs (· ≠ '\n') 1 none t).flatMap fun x =>
      ((ending : Pattern Part).ways x.2).map
        (Pattern.Match.append ⟨x.1, [(.name, x.1)], x.2⟩) := by
    simp only [nameToEnd, Pattern.ways, List.map_map, List.flatMap_map]
    rfl
  have line : t.takeWhile (fun _ => true) = t ∧ t.dropWhile (fun _ => true) = [] :=
    ⟨List.takeWhile_eq_self_iff.mpr fun _ _ => rfl, List.dropWhile_eq_nil_iff.mpr fun _ _ => rfl⟩
  rw [ways, Pattern.flatMap_runs (q := fun _ => true) (fun _ _ => rfl) fun u c rest hu _ => ?_,
    line.1, line.2]
  · have all : t.all (· ≠ '\n') = !t.contains '\n' := by
      rw [Bool.eq_iff_iff]
      simp only [ne_eq, decide_not, List.all_eq_true, Bool.not_eq_true', decide_eq_false_iff_not,
        List.contains_eq_mem]
      exact ⟨fun hall hn => hall _ hn rfl, fun hn c hc hd => hn (hd ▸ hc)⟩
    rw [all, allows_one]
    cases t.contains '\n' <;> cases t.isEmpty <;> simp [Pattern.ways, Pattern.Match.append]
  · -- a line feed may be left at the very end only, where there is none
    have open_end : c :: rest ≠ ['\n'] := fun hrest => h (by rw [← hu, hrest, List.getLast?_concat])
    simp [Pattern.ways, open_end]

theorem getLast?_ne_of_append {u v : Text} {c : Char} (h : (u ++ v).getLast? ≠ some c) :
    v.getLast? ≠ some c :=
  fun hv => h (by rw [List.getLast?_append, hv, Option.some_or])

/-- Where something else than blanks is left, it is the name. -/
theorem head?_ways_name_of_ne_nil {gap rest : Text} (hgap : ∀ c ∈ gap, isBlank c = true)
    (hne : gap ≠ []) (hrest : StartsPlain rest) (hsome : rest ≠ [])
    (h : (gap ++ rest).getLast? ≠ some '\n') :
    ((seq blanks nameToEnd).ways (gap ++ rest)).head?.map (·.groups) =
      (nameOf? gap rest).map fun name => [(.name, name)] := by
  have name : nameOf? gap rest = if rest.contains '\n' then none else some rest := by
    simp [nameOf?, hsome]
  rw [ways_seq_blanks, name]
  cases hline : rest.contains '\n' with
  | true =>
    -- all ways of taking blanks leave the line feed behind
    have none : ∀ x ∈ Pattern.runs isBlank 1 none (gap ++ rest), nameToEnd.ways x.2 = [] := by
      rintro ⟨u, v⟩ hx
      obtain ⟨htext, hblank⟩ := Pattern.append_of_mem_runs hx
      have behind : rest = v.dropWhile isBlank := by
        rw [← List.dropWhile_append_of_pos hblank, htext, List.dropWhile_append_of_pos hgap]
        cases rest with
        | nil => rfl
        | cons c rest => rw [List.dropWhile_cons_of_neg (by simp [hrest c rfl])]
      have inside : '\n' ∈ v :=
        (List.dropWhile_suffix isBlank).subset (behind ▸ List.contains_iff_mem.mp hline)
      rw [ways_nameToEnd (getLast?_ne_of_append (htext ▸ h)), if_pos (by simp [inside])]
    rw [List.flatMap_eq_nil_iff.mpr fun x hx => by rw [none x hx, List.map_nil]]
    rfl
  | false =>
    obtain ⟨later, ways⟩ := Pattern.runs_append hgap hrest (List.length_pos_iff.mpr hne)
    rw [ways, List.flatMap_cons, ways_nameToEnd (getLast?_ne_of_append h), hline]
    simp [hsome, Pattern.Match.append]

/-- Where nothing but blanks is left, the last of them is the name, if another one is there. -/
theorem head?_ways_name_of_blanks {gap : Text} (hgap : ∀ c ∈ gap, isBlank c = true)
    (hne : gap ≠ []) (h : gap.getLast? ≠ some '\n') :
    ((seq blanks nameToEnd).ways gap).head?.map (·.groups) =
      (nameOf? gap []).map fun name => [(.name, name)] := by
  obtain ⟨before, c, rfl⟩ : ∃ before c, gap = before ++ [c] :=
    ⟨gap.dropLast, gap.getLast hne, (List.dropLast_concat_getLast hne).symm⟩
  obtain ⟨hbefore, hc⟩ := List.forall_mem_append.mp hgap
  have hblank : isBlank c = true := hc c (List.mem_singleton_self c)
  have line : c ≠ '\n' := fun hc => h (by rw [hc, List.getLast?_concat])
  have fails : nameToEnd.ways [] = [] := rfl
  rw [ways_seq_blanks]
  by_cases hempty : before = []
  · rw [hempty, List.nil_append, Pattern.runs_cons, hblank]
    rfl
  · -- taking all blanks leaves no name, and giving up the last of them is tried next
    have more : 1 ≤ before.length := List.length_pos_iff.mpr hempty
    obtain ⟨later, ways⟩ := Pattern.runs_append (t := []) hbefore nofun more
    rw [List.append_nil] at ways
    have name : nameOf? (before ++ [c]) [] = some [c] := by
      simp [nameOf?, more, line.symm]
    have left : nameToEnd.ways ([] ++ [c]) = [⟨[c], [(.name, [c])], []⟩] := by
      rw [List.nil_append, ways_nameToEnd (by simpa using line)]
      simp [line.symm]
    rw [Pattern.runs_snoc hbefore hblank more, ways, name, List.flatMap_cons, fails, List.map_cons,
      List.flatMap_cons, left]
    rfl

theorem startsPlain_dropWhile (t : Text) : StartsPlain (t.dropWhile isBlank) := by
  intro c hc
  have stop := List.head?_dropWhile_not isBlank t
  rwa [hc] at stop

/-- **The blanks before the name, and the name.** The last blank is given up if nothing else is left
for the name. -/
theorem head?_ways_name (h : t.getLast? ≠ some '\n') :
    ((seq blanks nameToEnd).ways t).head?.map (·.groups) =
      if (t.takeWhile isBlank).isEmpty then none
      else (nameOf? (t.takeWhile isBlank) (t.dropWhile isBlank)).map fun name => [(.name, name)] := by
  have hgap : ∀ c ∈ t.takeWhile isBlank, isBlank c = true :=
    List.all_eq_true.mp List.all_takeWhile
  have hrest := startsPlain_dropWhile t
  have parts : t.takeWhile isBlank ++ t.dropWhile isBlank = t := List.takeWhile_append_dropWhile
  generalize t.takeWhile isBlank = gap at *
  generalize t.dropWhile isBlank = rest at *
  subst parts
  by_cases hne : gap = []
  · rw [hne, List.nil_append, Pattern.ways, ways_blanks_of_startsPlain hrest]
    rfl
  · rw [if_neg (by simpa using hne)]
    by_cases hsome : rest = []
    · rw [hsome, List.append_nil] at h ⊢
      exact head?_ways_name_of_blanks hgap hne h
    · exact head?_ways_name_of_ne_nil hgap hne hrest hsome h

/-! ## The whole line -/

/-- The columns before the last one. -/
def leadingColumns : List Column := [
  ⟨permissions, fun w => !w.isEmpty, fun w => [(.type, w.take 1)]⟩,
  ⟨run isDecimalDigit 1 none, isCount, fun _ => []⟩,
  ⟨word, fun w => !w.isEmpty, fun _ => []⟩,
  ⟨word, fun w => !w.isEmpty, fun _ => []⟩,
  ⟨group .size (run Text.isDigit 1 none), isSize, fun w => [(.size, w)]⟩,
  ⟨word, fun w => !w.isEmpty, fun _ => []⟩,
  ⟨run isDecimalDigit 1 (some 2), isDay, fun _ => []⟩]

theorem isSound_leadingColumns : ∀ k ∈ leadingColumns, k.IsSound := by
  simp only [leadingColumns, List.forall_mem_cons]
  exact ⟨⟨reads_permissions, rfl⟩, ⟨reads_count, rfl⟩, ⟨reads_word, rfl⟩, ⟨reads_word, rfl⟩,
    ⟨reads_size, rfl⟩, ⟨reads_word, rfl⟩, ⟨reads_day, rfl⟩, nofun⟩

theorem pattern_eq : pattern =
    columns (leadingColumns.map (·.pattern)) (seq timeOrYear (seq blanks nameToEnd)) := rfl

/-- Nothing of a text is lost when fields are cut off. -/
theorem flatMap_characters_cut (n : Nat) (t : Text) :
    (cut n t).1.flatMap Field.characters ++ (cut n t).2 = t := by
  induction n generalizing t with
  | zero => rfl
  | succ n ih =>
    rw [cut, List.flatMap_cons, List.append_assoc, ih, Field.characters, List.append_assoc,
      Field.first_append]

theorem cut_cons (n : Nat) (t : Text) : cut (n + 1) t =
    ((Field.first t).1 :: (cut n (Field.first t).2).1, (cut n (Field.first t).2).2) := rfl

/-- The last field is the first one of what is left. -/
theorem cut_succ (n : Nat) (t : Text) : cut (n + 1) t =
    ((cut n t).1 ++ [(Field.first (cut n t).2).1], (Field.first (cut n t).2).2) := by
  induction n generalizing t with
  | zero => rfl
  | succ n ih => rw [cut_cons, ih, cut_cons n t, List.cons_append]

/-- **How columns, a time or year and a name match a line**: the parts are those of the fields, and
the name is in what the fields leave. -/
theorem groups_match? {ks : List Column} (hks : ∀ k ∈ ks, k.IsSound) {line rest left : Text}
    {fields : List Field} {time : Field} (hcut : cut ks.length line = (fields, rest))
    (hfirst : Field.first rest = (time, left)) (h : line.getLast? ≠ some '\n') :
    ((columns (ks.map (·.pattern)) (seq timeOrYear (seq blanks nameToEnd))).match? line).map
        (·.groups) =
      if Column.fits ks fields && isTimeOrYear time.text && !time.gap.isEmpty then
        (nameOf? time.gap left).map fun name => Column.found ks fields ++ [(.name, name)]
      else none := by
  have behind : (afterWord rest).getLast? ≠ some '\n' := by
    rw [← flatMap_characters_cut ks.length line, hcut, ← wordOf_append_afterWord rest] at h
    exact getLast?_ne_of_append (getLast?_ne_of_append h)
  have last := head?_ways_name behind
  have matched := ways_columns hks (reads_timeOrYear.beginsPlain rfl nameToEnd) line
  rw [reads_timeOrYear.ways_seq_blanks, hcut] at matched
  obtain ⟨rfl, rfl⟩ := Prod.mk.inj hfirst.symm
  show _ = if Column.fits ks fields && isTimeOrYear (wordOf rest) &&
    !((afterWord rest).takeWhile isBlank).isEmpty then
      (nameOf? ((afterWord rest).takeWhile isBlank) ((afterWord rest).dropWhile isBlank)).map _
    else none
  rw [Pattern.match?, matched]
  cases Column.fits ks fields
  · rfl
  · cases isTimeOrYear (wordOf rest)
    · rfl
    · -- the parts of the columns stand before the name
      have parts (names : List (Pattern.Match Part)) (u v w x : Text) :
          ((names.map (Pattern.Match.append ⟨u, [], v⟩)).map
            (Pattern.Match.append ⟨w, Column.found ks fields, x⟩)).head?.map (·.groups) =
              (names.head?.map (·.groups)).map (Column.found ks fields ++ ·) := by
        rw [List.head?_map, List.head?_map, Option.map_map, Option.map_map, Option.map_map]
        rfl
      rw [if_pos rfl, if_pos rfl, parts, last]
      cases ((afterWord rest).takeWhile isBlank).isEmpty
      · exact Option.map_map _ _ _
      · rfl

/-- The fields that the columns take are complete and hold what they should. -/
theorem fits_leadingColumns (mode links owner team size month day time : Field) :
    (Column.fits leadingColumns [mode, links, owner, team, size, month, day] &&
        isTimeOrYear time.text && !time.gap.isEmpty) =
      ([mode, links, owner, team, size, month, day, time].all (·.isComplete) &&
        isCount links.text && isSize size.text && isDay day.text && isTimeOrYear time.text) := by
  have links_some : isCount links.text = true → links.text.isEmpty = false := by
    cases links.text <;> simp [isCount, isDigits]
  have size_some : isSize size.text = true → size.text.isEmpty = false := by
    cases size.text <;> simp [isSize]
  have day_some : isDay day.text = true → day.text.isEmpty = false := by
    cases day.text <;> simp [isDay, isDigits]
  have time_some : isTimeOrYear time.text = true → time.text.isEmpty = false := by
    cases time.text <;> simp [isTimeOrYear, isDigits, Text.split]
  rw [Bool.eq_iff_iff]
  simp only [leadingColumns, Column.fits, List.all_cons, List.all_nil, Field.isComplete,
    Bool.and_eq_true, Bool.not_eq_true']
  grind

/-- The first character of a line is that of its first column. -/
theorem take_one_eq_iff {u v : Text} {c : Char} (h : u ≠ []) :
    u.take 1 = [c] ↔ (u ++ v).head? = some c := by
  obtain ⟨d, w, rfl⟩ := List.exists_cons_of_ne_nil h
  simp

/-- **A pattern says what cutting off the fields says**, of any line without its line feed. -/
theorem readPattern?_eq {line : Text} (h : line.getLast? ≠ some '\n') :
    readPattern? line = read? line := by
  rcases hcut : cut 7 line with ⟨fields, rest⟩
  rcases hfirst : Field.first rest with ⟨time, left⟩
  have groups := groups_match? isSound_leadingColumns hcut hfirst h
  have characters := flatMap_characters_cut 7 line
  have whole : cut 8 line = (fields ++ [time], left) := by rw [cut_succ, hcut, hfirst]
  have bind : readPattern? line =
      ((pattern.match? line).map (·.groups)).bind (ofParts line) := by
    rw [Option.bind_map]
    rfl
  rw [hcut] at characters
  -- the seven fields by their names, as they are cut off one after the other
  obtain ⟨mode, links, owner, team, size, month, day, rfl⟩ :
      ∃ mode links owner team size month day : Field,
        fields = [mode, links, owner, team, size, month, day] :=
    ⟨_, _, _, _, _, _, _, (congrArg Prod.fst hcut).symm⟩
  rw [bind, pattern_eq, groups, fits_leadingColumns, read?, whole]
  simp only [List.cons_append, List.nil_append]
  split
  · next ok =>
    have some_mode : mode.text ≠ [] := by
      simp only [List.all_cons, Field.isComplete, Bool.and_eq_true, Bool.not_eq_true',
        List.isEmpty_eq_false_iff] at ok
      exact ok.1.1.1.1.1.1
    have head : mode.text.take 1 = ['d'] ↔ line.head? = some 'd' := by
      rw [← characters, List.flatMap_cons, Field.characters, List.append_assoc, List.append_assoc]
      exact take_one_eq_iff some_mode
    cases nameOf? time.gap left with
    | none => rfl
    | some name =>
      show some (if mode.text.take 1 = ['d'] then _ else _, _) = _
      rw [if_congr head rfl rfl]
      rfl
  · rfl

end DirectoryListing.EntryLine
