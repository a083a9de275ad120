/-!
# Text

Text is a list of characters, so that every operation on it is a recursion a proof can follow.

## Main definitions

* `Text.split sep t`: the pieces of `t` between occurrences of `sep`
* `Text.lines t`: the lines of `t`, each with its line feed
* `Text.withoutLineEnd t`: `t` less the carriage returns and line feeds at its end
* `Text.joined sep ts`: the texts `ts` with `sep` between neighbours
* `Text.ofNat`, `Text.ofInt`: decimal numerals

## Main results

* `Text.flatten_lines`: the lines, one after the other, are the text
-/

namespace DirectoryListing

/-- A text, character by character. -/
abbrev Text := List Char

namespace Text

/-! ## Pieces and lines -/

/-- The pieces of a text between occurrences of `sep`; a text without `sep` is one piece. -/
def split (sep : Char) : Text → List Text
  | [] => [[]]
  | c :: t =>
    if c = sep then [] :: split sep t
    else match split sep t with
      | [] => [[c]]
      | piece :: pieces => (c :: piece) :: pieces

/-- The texts in order, with `sep` between neighbours. -/
def joined (sep : Text) (ts : List Text) : Text :=
  sep.intercalate ts

/-- The lines of a text. A line ends with its line feed; the last one may lack it. -/
def lines : Text → List Text
  | [] => []
  | c :: t =>
    if c = '\n' then ['\n'] :: lines t
    else match lines t with
      | [] => [[c]]
      | line :: rest => (c :: line) :: rest

/-- Carriage returns and line feeds end lines. -/
def isLineEnd (c : Char) : Bool :=
  c = '\r' || c = '\n'

/-- The text without the characters of class `p` at its end. -/
def dropEndWhile (p : Char → Bool) (t : Text) : Text :=
  (t.reverse.dropWhile p).reverse

/-- The text without the carriage returns and line feeds at its end. -/
def withoutLineEnd (t : Text) : Text :=
  t.dropEndWhile isLineEnd

theorem split_ne_nil (sep : Char) (t : Text) : split sep t ≠ [] := by
  cases t with
  | nil => simp [split]
  | cons c t =>
    unfold split
    split
    · simp
    · split <;> simp

theorem flatten_lines (t : Text) : t.lines.flatten = t := by
  induction t with
  | nil => rfl
  | cons c t ih =>
    unfold Text.lines
    split
    · next h => simp [h, ih]
    · split <;> next hs => simpa [hs] using ih

/-! ## Decimal numerals -/

/-- The decimal digits of a number. -/
def ofNat (n : Nat) : Text :=
  Nat.toDigits 10 n

/-- The decimal numeral of an integer, with a minus sign when it is negative. -/
def ofInt : Int → Text
  | .ofNat n => ofNat n
  | .negSucc n => '-' :: ofNat (n + 1)

/-- An ASCII decimal digit. -/
def isDigit (c : Char) : Bool :=
  '0' ≤ c && c ≤ '9'

/-- The number that a run of decimal digits denotes. -/
def toNat (digits : Text) : Nat :=
  Nat.ofDigitChars 10 digits 0

theorem toNat_ofNat (n : Nat) : toNat (ofNat n) = n :=
  Nat.ofDigitChars_toDigits (by decide) (by decide)

/-! ## Letters -/

/-- The text with its ASCII capitals made small. -/
def lowercase (t : Text) : Text :=
  t.map Char.toLower

end Text

end DirectoryListing
