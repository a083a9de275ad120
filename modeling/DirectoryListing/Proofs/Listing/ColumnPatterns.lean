import DirectoryListing.Proofs.Listing.EntryLines
import DirectoryListing.Proofs.Path.Segments
import DirectoryListing.Proofs.Text.Pattern
import Mathlib.Data.List.TakeWhile

/-!
# Patterns of columns

The columns of an entry line can be told by patterns, with runs of blanks after them. The runs of a
pattern may give up characters again, but these have no choice. What a column takes is not blank, and
a blank has to follow, so that the column takes a whole word; the blanks after it end where the next
column begins.

## Main definitions

* `EntryLine.columns ps last`: columns with blanks after them, and what follows
* `EntryLine.Reads p good captures`: a pattern that takes whole words, if they are good
* `EntryLine.Column`: a column of a pattern with the words that it takes

## Main results

* `EntryLine.reads_timeOrYear`: the alternatives of the last column take whole words as well
* `EntryLine.Reads.ways_column`, `EntryLine.ways_columns`: columns have one way to match at most
-/

namespace DirectoryListing.EntryLine

/-! ## The columns -/

/-- The parts of an entry line that are looked at. -/
inductive Part where
  | type
  | size
  | name
  deriving DecidableEq, Repr

open Pattern (run seq either group ending)

/-- Blanks between columns. -/
def blanks : Pattern Part := run isBlank 1 none

/-- A column that may hold anything. -/
def word : Pattern Part := run (!isBlank ·) 1 none

/-- The first column: its first character says what the entry is. -/
def permissions : Pattern Part :=
  seq (group .type (run (!isBlank ·) 1 (some 1))) (run (!isBlank ·) 0 none)

/-- A time of day. -/
def time : Pattern Part :=
  seq (run isDecimalDigit 1 (some 2))
    (seq (run (· = ':') 1 (some 1)) (run isDecimalDigit 2 (some 2)))

/-- A time of day, or else a year. -/
def timeOrYear : Pattern Part := either time (run isDecimalDigit 4 (some 4))

/-- Columns, each with blanks after it, and what follows them. -/
def columns (ps : List (Pattern Part)) (last : Pattern Part) : Pattern Part :=
  ps.foldr (fun p q => seq p (seq blanks q)) last

/-! ## Words -/

variable {p q : Pattern Part} {good : Text → Bool} {captures : Text → List (Part × Text)}
  {t u : Text}

/-- The word at the start of a text: all before the first blank. -/
def wordOf (t : Text) : Text := t.takeWhile (!isBlank ·)

/-- What follows the word at the start of a text. -/
def afterWord (t : Text) : Text := t.dropWhile (!isBlank ·)

theorem wordOf_append_afterWord (t : Text) : wordOf t ++ afterWord t = t :=
  List.takeWhile_append_dropWhile

theorem not_isBlank_of_mem_wordOf {c : Char} (h : c ∈ wordOf t) : isBlank c = false := by
  simpa using List.all_eq_true.mp List.all_takeWhile c h

/-- Characters that are not blank belong to the word that they stand before. -/
theorem wordOf_append (hu : ∀ c ∈ u, isBlank c = false) (t : Text) :
    wordOf (u ++ t) = u ++ wordOf t ∧ afterWord (u ++ t) = afterWord t := by
  have plain : ∀ c ∈ u, (!isBlank c) = true := fun c hc => by simp [hu c hc]
  exact ⟨List.takeWhile_append_of_pos plain, List.dropWhile_append_of_pos plain⟩

/-- A decimal digit is not blank. -/
theorem not_isBlank_of_isDecimalDigit (c : Char) (h : isDecimalDigit c = true) :
    isBlank c = false := by
  have apart : ∀ start ∈ DecimalDigit.zeros, ∀ run ∈ blankRuns,
      run.2 < start ∨ start + 10 ≤ run.1 := by decide
  obtain ⟨start, hstart, hc⟩ := List.any_eq_true.mp h
  refine List.any_eq_false.mpr fun run hrun => ?_
  have := apart start hstart run hrun
  simp only [Bool.and_eq_true, decide_eq_true_eq] at hc ⊢
  omega

/-- If nothing comes of leaving a text that does not begin with a blank, the pattern takes the word at
the start of a text if it is good, in one way, and no other text. -/
def Reads (p : Pattern Part) (good : Text → Bool) (captures : Text → List (Part × Text)) : Prop :=
  ∀ (t : Text) (f : Pattern.Match Part → List (Pattern.Match Part)),
    (∀ m, StartsPlain m.rest → f m = []) →
    (p.ways t).flatMap f =
      if good (wordOf t) then f ⟨wordOf t, captures (wordOf t), afterWord t⟩ else []

/-- Leaving a text that does not begin with a blank is all that a run can do before the end of its
word. -/
theorem reads_run {p : Char → Bool} (hp : ∀ c, p c = true → isBlank c = false) (least : Nat)
    (most : Option Nat) :
    Reads (run p least most) (fun w => w.all p && Pattern.allows least most w.length)
      fun _ => [] := by
  intro t f hf
  rw [Pattern.ways, List.flatMap_map]
  -- what is left begins with a character of the word as long as the word is not over
  refine Pattern.flatMap_runs (f := fun x => f ⟨x.1, [], x.2⟩) (fun c hc => by simp [hp c hc])
    fun u c rest _ hc => hf _ fun d hd => ?_
  obtain rfl : c = d := by simpa using hd
  simpa using hc

/-- A named column takes the same words. -/
theorem Reads.group (h : Reads p good captures) (i : Part) :
    Reads (group i p) good fun w => captures w ++ [(i, w)] := by
  intro t f hf
  rw [Pattern.ways, List.flatMap_map]
  exact h t (fun m => f (m.named i)) fun m hm => hf _ hm

/-- The first column takes any word, but has to take one. -/
theorem reads_permissions :
    Reads permissions (fun w => !w.isEmpty) fun w => [(.type, w.take 1)] := by
  intro t f hf
  cases t with
  | nil => rfl
  | cons c t =>
    cases hc : isBlank c with
    | true => simp [permissions, Pattern.ways, Pattern.runs_one, wordOf, hc]
    | false =>
      -- the first character is one, and the rest of the word is taken after it
      let first : Pattern.Match Part := ⟨[c], [(.type, [c])], t⟩
      have ways : permissions.ways (c :: t) = ((run (!isBlank ·) 0 none).ways t).map first.append := by
        simp [permissions, Pattern.ways, Pattern.runs_one, hc, first, Pattern.Match.named]
      have rest := reads_run (p := (!isBlank ·)) (fun c hc => by simpa using hc) 0 none t
        (fun m => f (first.append m)) fun m hm => hf _ hm
      rw [ways, List.flatMap_map, rest]
      simp [Pattern.allows, wordOf, afterWord, hc, first, Pattern.Match.append]

/-- One of two columns takes a word that is good for either, if none is good for both. -/
theorem Reads.either {good' : Text → Bool} (h : Reads p good captures) (h' : Reads q good' captures)
    (hne : ∀ w, good w = true → good' w = false) :
    Reads (either p q) (fun w => good w || good' w) captures := by
  intro t f hf
  rw [Pattern.ways, List.flatMap_append, h t f hf, h' t f hf]
  cases hw : good (wordOf t) with
  | true => simp [hw, hne _ hw]
  | false => simp [hw]

/-- It is only asked of words whether they are good. -/
theorem Reads.congr {good' : Text → Bool} (h : Reads p good captures)
    (heq : ∀ t, good (wordOf t) = good' (wordOf t)) : Reads p good' captures := by
  intro t f hf
  rw [h t f hf, heq]

theorem allows_one (w : Text) : Pattern.allows 1 none w.length = !w.isEmpty := by
  cases w <;> simp [Pattern.allows]

/-- A column that may hold anything takes any word, but has to take one. -/
theorem reads_word : Reads word (fun w => !w.isEmpty) fun _ => [] := by
  refine (reads_run (p := (!isBlank ·)) (fun c hc => by simpa using hc) 1 none).congr fun t => ?_
  have plain : (wordOf t).all (!isBlank ·) = true := List.all_takeWhile
  rw [plain, Bool.true_and, allows_one]

theorem isDigits_eq (least greatest : Nat) (w : Text) : isDigits least greatest w =
    (w.all isDecimalDigit && Pattern.allows least (some greatest) w.length) := by
  simp only [isDigits, Pattern.allows, Option.all_some, Bool.and_comm]

theorem reads_count : Reads (run isDecimalDigit 1 none) isCount fun _ => [] := by
  refine (reads_run not_isBlank_of_isDecimalDigit 1 none).congr fun t => ?_
  simp only [isCount, isDigits_eq, Pattern.allows, Option.all_none, Option.all_some, Nat.le_refl,
    decide_true]

theorem reads_size : Reads (Pattern.group .size (run Text.isDigit 1 none)) isSize
    fun w => [(.size, w)] := by
  refine ((reads_run (fun _ => Text.not_isBlank_of_isDigit) 1 none).group .size).congr fun t => ?_
  rw [isSize, allows_one, Bool.and_comm]

theorem reads_day : Reads (run isDecimalDigit 1 (some 2)) isDay fun _ => [] := by
  refine (reads_run not_isBlank_of_isDecimalDigit 1 (some 2)).congr fun t => ?_
  rw [isDay, isDigits_eq]

/-! ## Times -/

/-- A time of day: one or two digits for the hour and two for the minute. -/
def isTime (w : Text) : Bool :=
  match w.split ':' with
  | [hour, minute] => isDigits 1 2 hour && isDigits 2 2 minute
  | _ => false

theorem isDigits_iff {least greatest : Nat} : isDigits least greatest t = true ↔
    least ≤ t.length ∧ t.length ≤ greatest ∧ ∀ d ∈ t, isDecimalDigit d = true := by
  simp only [isDigits, Bool.and_eq_true, decide_eq_true_eq, List.all_eq_true, and_assoc]

theorem not_mem_of_isDigits {least greatest : Nat} {w : Text} {c : Char}
    (h : isDigits least greatest w = true) (hc : isDecimalDigit c = false) : c ∉ w :=
  fun hw => absurd ((isDigits_iff.mp h).2.2 c hw) (by simp [hc])

theorem isTime_of_not_mem {w : Text} (h : ':' ∉ w) : isTime w = false := by
  rw [isTime, Text.split_of_not_mem h]

/-- What stands before the first colon is the hour. -/
theorem isTime_append {hour : Text} (h : ':' ∉ hour) (minute : Text) :
    isTime (hour ++ ':' :: minute) = (isDigits 1 2 hour && isDigits 2 2 minute) := by
  rw [isTime, Text.split_append_cons h]
  by_cases hm : ':' ∈ minute
  · obtain ⟨u, v, rfl, hu⟩ := List.eq_append_cons_of_mem hm
    have two : isDigits 2 2 (u ++ ':' :: v) = false :=
      Bool.eq_false_iff.mpr fun h => not_mem_of_isDigits h (by decide) hm
    obtain ⟨x, xs, hs⟩ := List.exists_cons_of_ne_nil (Text.split_ne_nil ':' v)
    rw [Text.split_append_cons hu, hs, two, Bool.and_false]
  · rw [Text.split_of_not_mem hm]

theorem isTimeOrYear_eq (w : Text) : isTimeOrYear w = (isTime w || isDigits 4 4 w) := by
  by_cases h : ':' ∈ w
  · have year : isDigits 4 4 w = false :=
      Bool.eq_false_iff.mpr fun hw => not_mem_of_isDigits hw (by decide) h
    rw [year, Bool.or_false]
    obtain ⟨u, v, rfl, hu⟩ := List.eq_append_cons_of_mem h
    obtain ⟨x, xs, hs⟩ := List.exists_cons_of_ne_nil (Text.split_ne_nil ':' v)
    rw [isTimeOrYear, isTime, Text.split_append_cons hu, hs]
    cases xs <;> rfl
  · rw [isTime_of_not_mem h, isTimeOrYear, Text.split_of_not_mem h, Bool.false_or]

/-- A year holds no colon, and a time does. -/
theorem not_isYear_of_isTime (w : Text) (h : isTime w = true) : isDigits 4 4 w = false := by
  refine Bool.eq_false_iff.mpr fun hw => ?_
  rw [isTime_of_not_mem (not_mem_of_isDigits hw (by decide))] at h
  cases h

/-- What comes after an hour: a colon, and a word for the minute. -/
def minuteAfter (f : Pattern.Match Part → List (Pattern.Match Part)) (hour : Text) :
    Text → List (Pattern.Match Part)
  | [] => []
  | c :: t =>
    if c = ':' && isDigits 2 2 (wordOf t) then f ⟨hour ++ c :: wordOf t, [], afterWord t⟩ else []

theorem flatMap_ways_time {f : Pattern.Match Part → List (Pattern.Match Part)}
    (hf : ∀ m, StartsPlain m.rest → f m = []) (t : Text) : (time.ways t).flatMap f =
      (Pattern.runs isDecimalDigit 1 (some 2) t).flatMap fun x => minuteAfter f x.1 x.2 := by
  have minute : ∀ x : Text × Text, minuteAfter f x.1 x.2 =
      (Pattern.runs (· = ':') 1 (some 1) x.2).flatMap fun y =>
        ((run isDecimalDigit 2 (some 2)).ways y.2).flatMap fun m =>
          f ⟨x.1 ++ (y.1 ++ m.text), m.groups, m.rest⟩ := by
    rintro ⟨hour, _ | ⟨c, t⟩⟩
    · rfl
    · have word := reads_run not_isBlank_of_isDecimalDigit 2 (some 2) t
        (fun m => f ⟨hour ++ c :: m.text, m.groups, m.rest⟩) fun m hm => hf _ hm
      rw [minuteAfter, Pattern.runs_one, isDigits_eq]
      by_cases hc : c = ':'
      · rw [if_pos (decide_eq_true hc), List.flatMap_singleton]
        simp only [decide_eq_true hc, Bool.true_and]
        exact word.symm
      · rw [if_neg (by simp [hc]), if_neg (by simp [hc]), List.flatMap_nil]
  simp only [minute, time, Pattern.ways, List.flatMap_map, List.map_flatMap, List.flatMap_assoc,
    List.map_map]
  rfl

/-- An hour takes all before the first colon. -/
theorem flatMap_runs_hour (f : Pattern.Match Part → List (Pattern.Match Part)) (t : Text) :
    (Pattern.runs isDecimalDigit 1 (some 2) t).flatMap (fun x => minuteAfter f x.1 x.2) =
      if isDigits 1 2 (t.takeWhile (· ≠ ':')) then
        minuteAfter f (t.takeWhile (· ≠ ':')) (t.dropWhile (· ≠ ':'))
      else [] := by
  rw [isDigits_eq]
  refine Pattern.flatMap_runs (fun c hc => decide_eq_true ?_) fun u c rest _ hc => ?_
  · rintro rfl
    exact absurd hc (by decide)
  · simp [minuteAfter, of_decide_eq_true hc]

/-- A word goes on behind a colon. -/
theorem wordOf_append_colon (hu : ∀ c ∈ u, isBlank c = false) (t : Text) :
    wordOf (u ++ ':' :: t) = u ++ ':' :: wordOf t ∧ afterWord (u ++ ':' :: t) = afterWord t := by
  have plain : ∀ c ∈ u ++ [':'], isBlank c = false :=
    List.forall_mem_append.mpr ⟨hu, List.forall_mem_singleton.mpr (by decide)⟩
  have word := wordOf_append plain t
  rwa [List.append_assoc, List.append_assoc, List.singleton_append, List.singleton_append] at word

/-- A word ends before a colon that stands behind a blank. -/
theorem not_mem_wordOf_append_colon (hu : ':' ∉ u) (hblank : ¬ ∀ c ∈ u, isBlank c = false)
    (t : Text) : ':' ∉ wordOf (u ++ ':' :: t) := by
  intro hc
  rcases List.prefix_or_prefix_of_prefix (List.prefix_append u (':' :: t))
    (List.takeWhile_prefix (!isBlank ·)) with hp | hp
  · exact hblank fun d hd => not_isBlank_of_mem_wordOf (hp.subset hd)
  · exact hu (hp.subset hc)

/-- **A time** is taken if it is one. -/
theorem reads_time : Reads time isTime fun _ => [] := by
  intro t f hf
  rw [flatMap_ways_time hf, flatMap_runs_hour]
  by_cases h : ':' ∈ t
  · obtain ⟨u, v, rfl, hu⟩ := List.eq_append_cons_of_mem h
    have before : ∀ c ∈ u, decide (c ≠ ':') = true := fun c hc =>
      decide_eq_true fun h => hu (h ▸ hc)
    rw [List.takeWhile_append_of_pos before, List.dropWhile_append_of_pos before,
      List.takeWhile_cons_of_neg (by simp), List.dropWhile_cons_of_neg (by simp), List.append_nil]
    by_cases plain : ∀ c ∈ u, isBlank c = false
    · obtain ⟨hword, hafter⟩ := wordOf_append_colon plain v
      rw [hword, hafter, isTime_append hu, minuteAfter]
      cases isDigits 1 2 u <;> simp
    · -- neither is there an hour before the colon, nor does the word reach it
      have hour : isDigits 1 2 u = false := Bool.eq_false_iff.mpr fun hd =>
        plain fun c hc => not_isBlank_of_isDecimalDigit c ((isDigits_iff.mp hd).2.2 c hc)
      rw [hour, isTime_of_not_mem (not_mem_wordOf_append_colon hu plain v)]
      rfl
  · -- there is no colon at all
    have none : t.dropWhile (· ≠ ':') = [] :=
      List.dropWhile_eq_nil_iff.mpr fun c hc => decide_eq_true fun hd => h (hd ▸ hc)
    have hcolon : ':' ∉ wordOf t := fun hc => h ((List.takeWhile_prefix _).subset hc)
    rw [none, isTime_of_not_mem hcolon]
    simp [minuteAfter]

/-- **A time or a year** is taken if it is one. -/
theorem reads_timeOrYear : Reads timeOrYear isTimeOrYear fun _ => [] := by
  have year := reads_run not_isBlank_of_isDecimalDigit 4 (some 4)
  simp only [← isDigits_eq] at year
  rw [funext isTimeOrYear_eq]
  exact reads_time.either year not_isYear_of_isTime

/-! ## Columns -/

theorem ways_blanks_of_startsPlain (h : StartsPlain t) : blanks.ways t = [] := by
  cases t with
  | nil => rfl
  | cons c t => simp [blanks, Pattern.ways, Pattern.runs_cons, h c rfl]

/-- A column before blanks takes the word, or nothing. -/
theorem Reads.ways_seq_blanks (h : Reads p good captures) (q : Pattern Part) (t : Text) :
    (seq p (seq blanks q)).ways t =
      if good (wordOf t) then
        ((seq blanks q).ways (afterWord t)).map
          (Pattern.Match.append ⟨wordOf t, captures (wordOf t), afterWord t⟩)
      else [] := by
  refine h t (fun m => ((seq blanks q).ways m.rest).map m.append) fun m hm => ?_
  rw [Pattern.ways, ways_blanks_of_startsPlain hm]
  rfl

/-- A pattern that does not match before a blank, nor at the end. -/
def BeginsPlain (q : Pattern Part) : Prop :=
  ∀ u : Text, (∀ c ∈ u.head?, isBlank c = true) → q.ways u = []

/-- Columns begin with a character that is not blank. -/
theorem Reads.beginsPlain (h : Reads p good captures) (hgood : good [] = false)
    (q : Pattern Part) : BeginsPlain (seq p (seq blanks q)) := by
  intro u hu
  have none : wordOf u = [] := by
    cases u with
    | nil => rfl
    | cons c u => simp [wordOf, hu c rfl]
  rw [h.ways_seq_blanks, none, hgood]
  rfl

/-- The ways to take blanks and what follows them. -/
theorem ways_seq_blanks (q : Pattern Part) (t : Text) : (seq blanks q).ways t =
    (Pattern.runs isBlank 1 none t).flatMap fun x =>
      (q.ways x.2).map (Pattern.Match.append ⟨x.1, [], x.2⟩) := by
  rw [Pattern.ways, blanks, Pattern.ways, List.flatMap_map]

/-- Blanks before what begins with another character are all taken. -/
theorem ways_seq_blanks_of_beginsPlain (hq : BeginsPlain q) (t : Text) : (seq blanks q).ways t =
    if (t.takeWhile isBlank).isEmpty then []
    else (q.ways (t.dropWhile isBlank)).map
      (Pattern.Match.append ⟨t.takeWhile isBlank, [], t.dropWhile isBlank⟩) := by
  rw [ways_seq_blanks, Pattern.flatMap_runs (q := isBlank) (fun _ => id) fun u c rest _ hc => by
    rw [hq (c :: rest) (by simpa using hc), List.map_nil]]
  have all : (t.takeWhile isBlank).all isBlank = true := List.all_takeWhile
  rw [all, Bool.true_and]
  cases t.takeWhile isBlank <;> simp [Pattern.allows]

/-- **A column has one way to match at most**: it takes a field, and leaves what follows it. -/
theorem Reads.ways_column (h : Reads p good captures) (hq : BeginsPlain q) (t : Text) :
    (seq p (seq blanks q)).ways t =
      if good (Field.first t).1.text && !(Field.first t).1.gap.isEmpty then
        (q.ways (Field.first t).2).map (Pattern.Match.append
          ⟨(Field.first t).1.characters, captures (Field.first t).1.text, (Field.first t).2⟩)
      else [] := by
  rw [h.ways_seq_blanks, ways_seq_blanks_of_beginsPlain hq]
  show (if good (Field.first t).1.text then
    (if (Field.first t).1.gap.isEmpty then [] else _).map _ else []) = _
  cases good (Field.first t).1.text <;> cases (Field.first t).1.gap.isEmpty <;>
    simp [Pattern.Match.append, Field.characters, Field.first, wordOf, afterWord]

/-- A column of a pattern: the words that it takes, and its parts that are looked at. -/
structure Column where
  pattern : Pattern Part
  good : Text → Bool
  captures : Text → List (Part × Text)

namespace Column

/-- A column takes the words that it should, and has to take one. -/
structure IsSound (k : Column) : Prop where
  reads : Reads k.pattern k.good k.captures
  not_good_nil : k.good [] = false

/-- The fields have blanks after them and hold what the columns take. -/
def fits : List Column → List Field → Bool
  | [], [] => true
  | k :: ks, f :: fs => k.good f.text && !f.gap.isEmpty && fits ks fs
  | _, _ => false

/-- What the columns find in some fields. -/
def found : List Column → List Field → List (Part × Text)
  | k :: ks, f :: fs => k.captures f.text ++ found ks fs
  | _, _ => []

end Column

theorem columns_cons (p q : Pattern Part) (ps : List (Pattern Part)) :
    columns (p :: ps) q = seq p (seq blanks (columns ps q)) := rfl

theorem beginsPlain_columns {ks : List Column} (hks : ∀ k ∈ ks, k.IsSound) (hq : BeginsPlain q) :
    BeginsPlain (columns (ks.map (·.pattern)) q) := by
  cases ks with
  | nil => exact hq
  | cons k ks =>
    have hk := hks k List.mem_cons_self
    exact hk.reads.beginsPlain hk.not_good_nil _

/-- **Columns have one way to match at most**: they take a field each, and leave what follows. -/
theorem ways_columns {ks : List Column} (hks : ∀ k ∈ ks, k.IsSound) (hq : BeginsPlain q) (t : Text) :
    (columns (ks.map (·.pattern)) q).ways t =
      if Column.fits ks (cut ks.length t).1 then
        (q.ways (cut ks.length t).2).map (Pattern.Match.append
          ⟨(cut ks.length t).1.flatMap Field.characters, Column.found ks (cut ks.length t).1,
            (cut ks.length t).2⟩)
      else [] := by
  -- by the columns; each is followed by one that begins plain, and the last one by what does so too
  induction ks generalizing t with
  | nil =>
    exact (List.map_id (q.ways t)).symm
  | cons k ks ih =>
    obtain ⟨hk, hks⟩ := List.forall_mem_cons.mp hks
    rw [List.map_cons, columns_cons, hk.reads.ways_column (beginsPlain_columns hks hq), ih hks]
    simp only [List.length_cons, cut, Column.fits, Column.found, List.flatMap_cons]
    cases k.good (Field.first t).1.text && !(Field.first t).1.gap.isEmpty
    · rfl
    · cases Column.fits ks (cut ks.length (Field.first t).2).1
      · rfl
      · simp [Pattern.Match.append, Function.comp_def]

end DirectoryListing.EntryLine
