import DirectoryListing.Text.Blank
import DirectoryListing.Text.DecimalDigit
import DirectoryListing.Tree

/-!
# Entry lines

An entry line has eight fields with blanks after each: permissions, link count, owner, group, size,
month, day, and time or year. The rest of the line is the name, which may hold blanks of its own.

## Main definitions

* `EntryLine.Field`, `EntryLine.cut`: the fields of a line and the rest of it
* `EntryLine.nameOf?`: the name in what the fields leave
* `EntryLine.read? line`: what a line says, if it has the shape of an entry line

## Implementation notes

A size may have any number of digits. A limit that a machine may set to the digits of a numeral is
idealised away.
-/

namespace DirectoryListing.EntryLine

/-! ## Fields -/

/-- A run of characters that are not blank, and the run of blanks after it. -/
structure Field where
  text : Text
  gap : Text
  deriving DecidableEq, Repr

/-- The field at the start of a text, and the rest of the text. Both runs are as long as they can
be. -/
def Field.first (t : Text) : Field × Text :=
  let rest := t.dropWhile (!isBlank ·)
  (⟨t.takeWhile (!isBlank ·), rest.takeWhile isBlank⟩, rest.dropWhile isBlank)

/-- The first `n` fields of a text, and the rest of it. -/
def cut : Nat → Text → List Field × Text
  | 0, t => ([], t)
  | n + 1, t =>
    let (field, rest) := Field.first t
    let (fields, rest) := cut n rest
    (field :: fields, rest)

/-- A field is complete when neither of its runs is empty. -/
def Field.isComplete (f : Field) : Bool :=
  !f.text.isEmpty && !f.gap.isEmpty

/-- Nothing of a text is lost when its first field is cut off. -/
theorem Field.first_append (t : Text) :
    (first t).1.text ++ ((first t).1.gap ++ (first t).2) = t := by
  simp [first]

/-! ## What a field may hold -/

/-- A number of decimal digits in the given range, of any script. -/
def isDigits (least greatest : Nat) (t : Text) : Bool :=
  least ≤ t.length && t.length ≤ greatest && t.all isDecimalDigit

/-- A link count: decimal digits of any script. -/
def isCount (t : Text) : Bool :=
  isDigits 1 t.length t

/-- A size: ASCII decimal digits. -/
def isSize (t : Text) : Bool :=
  !t.isEmpty && t.all Text.isDigit

/-- A day: one or two decimal digits. -/
def isDay (t : Text) : Bool :=
  isDigits 1 2 t

/-- A time, which has one or two digits for the hour and two for the minute, or a year, which has
four. -/
def isTimeOrYear (t : Text) : Bool :=
  match t.split ':' with
  | [year] => isDigits 4 4 year
  | [hour, minute] => isDigits 1 2 hour && isDigits 2 2 minute
  | _ => false

/-! ## The line -/

/-- The name in what the fields leave, given the blanks before it. Where nothing but blanks is
left, the last of them is the name, if there is another before it. A name stands on one line. -/
def nameOf? (gap rest : Text) : Option Text :=
  -- the last blank can be given up only if another one still ends the last field
  let name := if rest.isEmpty && 2 ≤ gap.length then gap.drop (gap.length - 1) else rest
  if name.isEmpty || name.contains '\n' then none else some name

/-- What a line says, if it has the shape of an entry line. Its first character tells directories
from all else. -/
def read? (line : Text) : Option (Kind × Entry) :=
  match cut 8 line with
  | ([permissions, links, owner, group, size, month, day, time], rest) =>
    if [permissions, links, owner, group, size, month, day, time].all (·.isComplete) &&
        isCount links.text && isSize size.text && isDay day.text && isTimeOrYear time.text then
      (nameOf? time.gap rest).map fun name =>
        (if line.head? = some 'd' then .directory else .file,
          ⟨line, name, Text.toNat size.text⟩)
    else none
  | _ => none

end DirectoryListing.EntryLine
