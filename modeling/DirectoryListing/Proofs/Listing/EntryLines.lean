import DirectoryListing.Listing.EntryLine
import DirectoryListing.Proofs.Text.Digits

/-!
# Printed entry lines

An entry line is printed as eight columns and a name. It is read back column by column: a run of
blanks ends where the next column or the name begins, since neither begins with a blank.

## Main definitions

* `EntryLine.Columns`, `EntryLine.Columns.IsWellFormed`: the columns before the name
* `EntryLine.IsName`: what the names in a listing may be
* `Entry.IsPrinted kind e`: the line of `e` is an entry line for its name and size

## Main results

* `EntryLine.cut_append`: cutting off columns
* `Entry.IsPrinted.read?`: a printed entry line is read back
* `Entry.isPrinted_plain`: there is a line for every entry
-/

namespace DirectoryListing

namespace EntryLine

variable {f : Field} {fs : List Field} {name rest : Text} {kind : Kind}

/-! ## Columns -/

/-- A column: a text without blanks, and blanks on the same line. -/
structure Field.IsColumn (f : Field) : Prop where
  text_ne_nil : f.text ≠ []
  text : ∀ c ∈ f.text, isBlank c = false
  gap_ne_nil : f.gap ≠ []
  gap : ∀ c ∈ f.gap, isBlank c = true
  gap_line : '\n' ∉ f.gap

/-- The characters of a column. -/
def Field.characters (f : Field) : Text :=
  f.text ++ f.gap

/-- A text that does not begin with a blank. -/
def StartsPlain (t : Text) : Prop :=
  ∀ c ∈ t.head?, isBlank c = false

instance (t : Text) : Decidable (StartsPlain t) :=
  decidable_of_iff (t.head?.all (!isBlank ·) = true) (by cases t <;> simp [StartsPlain])

theorem Field.IsColumn.startsPlain (h : f.IsColumn) (rest : Text) :
    StartsPlain (f.characters ++ rest) := by
  intro c hc
  obtain ⟨d, t, ht⟩ := List.exists_cons_of_ne_nil h.text_ne_nil
  rw [characters, ht] at hc
  obtain rfl : d = c := by simpa using hc
  exact h.text d (by simp [ht])

theorem Field.IsColumn.line (h : f.IsColumn) : '\n' ∉ f.characters := by
  intro hc
  rcases List.mem_append.mp hc with hc | hc
  · exact absurd (h.text _ hc) (by decide)
  · exact h.gap_line hc

/-- The first field of a text that begins with a column. -/
theorem Field.IsColumn.first_append (h : f.IsColumn) (hrest : StartsPlain rest) :
    Field.first (f.characters ++ rest) = (f, rest) := by
  have text : ∀ c ∈ f.text, (!isBlank c) = true := fun c hc => by simp [h.text c hc]
  have gap : (f.gap ++ rest).takeWhile (!isBlank ·) = [] ∧
      (f.gap ++ rest).dropWhile (!isBlank ·) = f.gap ++ rest := by
    obtain ⟨c, t, ht⟩ := List.exists_cons_of_ne_nil h.gap_ne_nil
    simp [ht, h.gap c (by simp [ht])]
  have stop : rest.takeWhile isBlank = [] ∧ rest.dropWhile isBlank = rest := by
    cases rest with
    | nil => simp
    | cons c t => simp [hrest c rfl]
  rw [Field.first, characters, List.append_assoc, List.takeWhile_append_of_pos text,
    List.dropWhile_append_of_pos text, gap.1, gap.2, List.takeWhile_append_of_pos h.gap,
    List.dropWhile_append_of_pos h.gap, stop.1, stop.2]
  simp

/-- **Cutting off columns** gives them back, and the rest. -/
theorem cut_append (h : ∀ f ∈ fs, f.IsColumn) (hrest : StartsPlain rest) :
    cut fs.length (fs.flatMap Field.characters ++ rest) = (fs, rest) := by
  induction fs with
  | nil => rfl
  | cons f fs ih =>
    obtain ⟨hf, hfs⟩ := List.forall_mem_cons.mp h
    -- the next column, or the name, bounds the blanks of this one
    have next : StartsPlain (fs.flatMap Field.characters ++ rest) := by
      cases fs with
      | nil => exact hrest
      | cons g fs =>
        rw [List.flatMap_cons, List.append_assoc]
        exact (hfs g List.mem_cons_self).startsPlain _
    rw [List.length_cons, cut, List.flatMap_cons, List.append_assoc, hf.first_append next]
    simp only [ih hfs]

/-- The columns of an entry line. -/
structure Columns where
  permissions : Field
  links : Field
  owner : Field
  group : Field
  size : Field
  month : Field
  day : Field
  time : Field

namespace Columns

/-- The columns in order. -/
def fields (c : Columns) : List Field :=
  [c.permissions, c.links, c.owner, c.group, c.size, c.month, c.day, c.time]

/-- The characters of the columns. -/
def characters (c : Columns) : Text :=
  c.fields.flatMap Field.characters

/-- The columns hold what they should. -/
structure IsWellFormed (c : Columns) : Prop where
  columns : ∀ f ∈ c.fields, f.IsColumn
  links : isCount c.links.text = true
  size : isSize c.size.text = true
  day : isDay c.day.text = true
  time : isTimeOrYear c.time.text = true

theorem IsWellFormed.line {c : Columns} (h : c.IsWellFormed) : '\n' ∉ c.characters := by
  intro hc
  obtain ⟨f, hf, hc⟩ := List.mem_flatMap.mp hc
  exact (h.columns f hf).line hc

end Columns

/-! ## Names -/

/-- A name that a listing may hold: it stands on its line as it is, and the name of a directory is
one segment of a path. -/
structure IsName (kind : Kind) (name : Text) : Prop where
  ne_nil : name ≠ []
  startsPlain : StartsPlain name
  line : '\n' ∉ name
  ends : name.getLast? ≠ some '\r'
  segment : kind = .directory → '/' ∉ name

instance (kind : Kind) (name : Text) : Decidable (IsName kind name) :=
  decidable_of_iff (name ≠ [] ∧ StartsPlain name ∧ '\n' ∉ name ∧ name.getLast? ≠ some '\r' ∧
      (kind = .directory → '/' ∉ name))
    ⟨fun ⟨h₁, h₂, h₃, h₄, h₅⟩ => ⟨h₁, h₂, h₃, h₄, h₅⟩,
      fun h => ⟨h.ne_nil, h.startsPlain, h.line, h.ends, h.segment⟩⟩

/-- A line begins as its first column does. -/
theorem Columns.IsWellFormed.head?_append {c : Columns} (hc : c.IsWellFormed) (rest : Text) :
    (c.characters ++ rest).head? = c.permissions.text.head? := by
  obtain ⟨d, t, ht⟩ :=
    List.exists_cons_of_ne_nil (hc.columns c.permissions (by simp [Columns.fields])).text_ne_nil
  simp [Columns.characters, Columns.fields, Field.characters, ht]

/-- **A line of columns** is read column by column, and the name is in what follows them. -/
theorem read?_characters_append {c : Columns} (hc : c.IsWellFormed) (hrest : StartsPlain rest) :
    read? (c.characters ++ rest) = (nameOf? c.time.gap rest).map fun name =>
      (if (c.characters ++ rest).head? = some 'd' then .directory else .file,
        ⟨c.characters ++ rest, name, Text.toNat c.size.text⟩) := by
  have cutting : cut 8 (c.characters ++ rest) = (c.fields, rest) := cut_append hc.columns hrest
  have complete : c.fields.all (·.isComplete) = true := by
    refine List.all_eq_true.mpr fun f hf => ?_
    have h := hc.columns f hf
    simp [Field.isComplete, h.text_ne_nil, h.gap_ne_nil]
  unfold Columns.fields at cutting complete
  rw [read?, cutting]
  simp only [complete, hc.links, hc.size, hc.day, hc.time, Bool.and_self, if_true]

/-- **A line of columns and a name** is read back. -/
theorem read?_append {c : Columns} (hc : c.IsWellFormed) (hname : IsName kind name) :
    read? (c.characters ++ name) =
      some (if c.permissions.text.head? = some 'd' then .directory else .file,
        ⟨c.characters ++ name, name, Text.toNat c.size.text⟩) := by
  -- the name is not empty, so the last column gives up none of its blanks
  have whole : nameOf? c.time.gap name = some name := by
    simp [nameOf?, hname.ne_nil, hname.line]
  rw [read?_characters_append hc hname.startsPlain, whole, hc.head?_append]
  rfl

end EntryLine

namespace Entry

open EntryLine

/-- The line of an entry is an entry line for its name and its size, and it begins with a `d` just
when the entry is a directory. -/
def IsPrinted (kind : Kind) (e : Entry) : Prop :=
  ∃ c : Columns, c.IsWellFormed ∧ e.line = c.characters ++ e.name ∧
    Text.toNat c.size.text = e.size ∧ (c.permissions.text.head? = some 'd' ↔ kind = .directory)

variable {kind : Kind} {e : Entry}

/-- **A printed entry line is read back.** -/
theorem IsPrinted.read? (h : e.IsPrinted kind) (hname : IsName kind e.name) :
    read? e.line = some (kind, e) := by
  obtain ⟨c, hc, hline, hsize, hkind⟩ := h
  have hif : (if c.permissions.text.head? = some 'd' then Kind.directory else .file) = kind := by
    cases kind <;> simp_all
  rw [hline, read?_append hc hname, hif, hsize, ← hline]

/-- A printed entry line is not blank, stands on one line and has no line end of its own. -/
theorem IsPrinted.line (h : e.IsPrinted kind) (hname : IsName kind e.name) :
    e.line.isBlank = false ∧ '\n' ∉ e.line ∧ ∀ c ∈ e.line.getLast?, Text.isLineEnd c = false := by
  obtain ⟨c, hc, hline, -⟩ := h
  obtain ⟨d, name, hd⟩ := List.exists_cons_of_ne_nil hname.ne_nil
  have last : e.line.getLast? = e.name.getLast? := by
    rw [hline, List.getLast?_append, hd, List.getLast?_cons, Option.some_or]
  refine ⟨?_, ?_, fun c hc => ?_⟩
  · have hplain : isBlank d = false := hname.startsPlain d (by simp [hd])
    simp [hline, hd, Text.isBlank, hplain]
  · rw [hline, List.mem_append]
    exact not_or.mpr ⟨hc.line, hname.line⟩
  · rw [last] at hc
    have hr : c ≠ '\r' := by
      rintro rfl
      exact hname.ends hc
    have hn : c ≠ '\n' := by
      rintro rfl
      exact hname.line (List.mem_of_getLast? hc)
    simp [Text.isLineEnd, hr, hn]

end Entry

/-! ## A line for every entry -/

namespace EntryLine

/-- A column with one space after it. -/
def Field.spaced (t : Text) : Field :=
  ⟨t, [' ']⟩

theorem Field.isColumn_spaced {t : Text} (hne : t ≠ []) (h : ∀ c ∈ t, isBlank c = false) :
    (Field.spaced t).IsColumn :=
  ⟨hne, h, by simp [spaced], by simp only [spaced, List.mem_singleton, forall_eq]; rfl,
    by simp [spaced]⟩

/-- Columns for an entry of the given kind and size. -/
def Columns.plain (kind : Kind) (size : Nat) : Columns where
  permissions := match kind with
    | .file => .spaced "-rw-r--r--".toList
    | .directory => .spaced "drwxr-xr-x".toList
  links := .spaced ['1']
  owner := .spaced "root".toList
  group := .spaced "root".toList
  size := .spaced (Text.ofNat size)
  month := .spaced "Jan".toList
  day := .spaced ['1']
  time := .spaced "00:00".toList

theorem Columns.isWellFormed_plain (kind : Kind) (size : Nat) :
    (Columns.plain kind size).IsWellFormed where
  columns := by
    have digits : (Field.spaced (Text.ofNat size)).IsColumn :=
      Field.isColumn_spaced (Text.ofNat_ne_nil size) fun c hc =>
        Text.not_isBlank_of_isDigit (Text.isDigit_of_mem_ofNat hc)
    have words : ∀ t ∈ ["-rw-r--r--".toList, "drwxr-xr-x".toList, ['1'], "root".toList,
        "Jan".toList, "00:00".toList], (Field.spaced t).IsColumn := by
      have plain : ∀ t ∈ ["-rw-r--r--".toList, "drwxr-xr-x".toList, ['1'], "root".toList,
          "Jan".toList, "00:00".toList], t ≠ [] ∧ t.all (!isBlank ·) = true := by decide
      intro t ht
      obtain ⟨hne, hall⟩ := plain t ht
      exact Field.isColumn_spaced hne fun c hc => by simpa using List.all_eq_true.mp hall c hc
    simp only [List.forall_mem_cons] at words
    cases kind <;> simp only [plain, fields, List.forall_mem_cons, digits, words, true_and] <;>
      exact nofun
  links := (by decide : isCount ['1'] = true)
  size := by simp [isSize, plain, Field.spaced, Text.ofNat_ne_nil, Text.all_isDigit_ofNat]
  day := (by decide : isDay ['1'] = true)
  time := (by decide : isTimeOrYear "00:00".toList = true)

end EntryLine

namespace Entry

/-- An entry with a line that says so. -/
def plain (kind : Kind) (name : Text) (size : Nat) : Entry :=
  ⟨(EntryLine.Columns.plain kind size).characters ++ name, name, size⟩

/-- **There is a line for every entry.** -/
theorem isPrinted_plain (kind : Kind) (name : Text) (size : Nat) :
    (plain kind name size).IsPrinted kind :=
  ⟨.plain kind size, EntryLine.Columns.isWellFormed_plain kind size, rfl, Text.toNat_ofNat size,
    by cases kind <;> simp [EntryLine.Columns.plain, EntryLine.Field.spaced]⟩

end Entry

end DirectoryListing
