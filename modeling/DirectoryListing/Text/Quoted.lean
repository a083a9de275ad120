import DirectoryListing.Text.Basic
import DirectoryListing.Text.Printable

/-!
# Quoted texts

A quoted text stands on one line of a log or an error text, and two texts never look the same in
it: quotation marks bound it, and what would break the line or the bounds is escaped.

## Main definitions

* `Text.quoted t`: `t` in quotation marks
* `Text.bracketed items`: items in square brackets, with commas between them
-/

namespace DirectoryListing

namespace Text

/-- The hexadecimal digits of `n`, small letters, padded with zeros to `width` digits. -/
def hexadecimal (width n : Nat) : Text :=
  let digits := Nat.toDigits 16 n
  List.replicate (width - digits.length) '0' ++ digits

/-- A character that is not printable, by its code point: two digits, or four or eight where two
are too few. -/
def escapedCode (c : Char) : Text :=
  if c.toNat < 0x100 then '\\' :: 'x' :: hexadecimal 2 c.toNat
  else if c.toNat < 0x10000 then '\\' :: 'u' :: hexadecimal 4 c.toNat
  else '\\' :: 'U' :: hexadecimal 8 c.toNat

/-- A character between two marks `mark`. -/
def quotedChar (mark c : Char) : Text :=
  if c = mark || c = '\\' then ['\\', c]
  else if c = '\n' then "\\n".toList
  else if c = '\r' then "\\r".toList
  else if c = '\t' then "\\t".toList
  else if isPrintable c then [c]
  else escapedCode c

/-- The mark that quotes a text: the single one, unless the text holds it and no double one. -/
def quotationMark (t : Text) : Char :=
  if t.contains '\x27' && !t.contains '\x22' then '\x22' else '\x27'

/-- The text in quotation marks, with the mark in use, backslashes and unprintable characters
escaped. -/
def quoted (t : Text) : Text :=
  t.quotationMark :: (t.flatMap (quotedChar t.quotationMark) ++ [t.quotationMark])

/-- The items in square brackets, a comma and a space between neighbours. -/
def bracketed (items : List Text) : Text :=
  "[".toList ++ joined ", ".toList items ++ "]".toList

/-- The items in braces, a comma and a space between neighbours. -/
def braced (items : List Text) : Text :=
  "\x7b".toList ++ joined ", ".toList items ++ "\x7d".toList

end Text

end DirectoryListing
