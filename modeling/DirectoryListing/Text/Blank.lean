import DirectoryListing.Text.Basic

/-!
# White space

The characters that separate fields and make a line blank: the Unicode spaces, the line and
paragraph separators, and the control characters that move the print position or separate records.

## Main definitions

* `isBlank c`: the class
* `Text.isBlank t`: a text of blanks only, such as the empty one
* `Text.trimmed t`: a text less the blanks at both ends
-/

namespace DirectoryListing

/-- The runs of blank characters, each by its first and its last code point. -/
def blankRuns : List (Nat × Nat) := [
  (0x09, 0x0D), (0x1C, 0x20), (0x85, 0x85), (0xA0, 0xA0), (0x1680, 0x1680), (0x2000, 0x200A),
  (0x2028, 0x2029), (0x202F, 0x202F), (0x205F, 0x205F), (0x3000, 0x3000)]

/-- A character is blank when it lies in one of the runs. -/
def isBlank (c : Char) : Bool :=
  blankRuns.any fun (first, last) => first ≤ c.toNat && c.toNat ≤ last

namespace Text

/-- A text is blank when all its characters are. -/
def isBlank (t : Text) : Bool :=
  t.all DirectoryListing.isBlank

/-- The text without the blanks at its ends. -/
def trimmed (t : Text) : Text :=
  dropEndWhile DirectoryListing.isBlank (t.dropWhile DirectoryListing.isBlank)

end Text

theorem isBlank_of_isLineEnd {c : Char} (h : Text.isLineEnd c = true) : isBlank c = true := by
  simp only [Text.isLineEnd, Bool.or_eq_true, decide_eq_true_eq] at h
  rcases h with rfl | rfl <;> decide

end DirectoryListing
