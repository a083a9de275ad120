import DirectoryListing.Text.Basic

/-!
# Words of a command line

A line is cut into words at blanks. Quotation marks keep blanks in a word and are dropped; a
backslash keeps the next character, whatever it is. Inside double quotation marks a backslash keeps
only a double quotation mark or a backslash and is itself kept before all else; inside single ones
it has no meaning.

## Main definitions

* `Words.Error`: why a line has no words
* `Words.scan mode t`: the words of the rest of a line
* `Words.split line`: the words of a line
-/

namespace DirectoryListing

namespace Words

/-- A line that ends inside quotation marks, or after a backslash that should keep a character. -/
inductive Error where
  | openQuotation
  | openEscape
  deriving DecidableEq, Repr

/-- The text of an error. -/
def Error.message : Error → Text
  | .openQuotation => "No closing quotation".toList
  | .openEscape => "No escaped character".toList

/-- Where the scan of a line stands: between words, in a word, inside quotation marks, or after a
backslash outside or inside double quotation marks. -/
inductive Mode where
  | between
  | word
  | quotation (mark : Char)
  | escape
  | quotedEscape
  deriving DecidableEq, Repr

/-- The characters that end a word. -/
def isSeparator (c : Char) : Bool :=
  c = ' ' || c = '\t' || c = '\r' || c = '\n'

/-- The single and the double quotation mark. -/
def isQuotationMark (c : Char) : Bool :=
  c = '\x27' || c = '\x22'

/-- The words with a character added at the start of the first. -/
def push (c : Char) : List Text → List Text
  | [] => [[c]]
  | word :: words => (c :: word) :: words

/-- The words of the rest of a line. In every mode but `between` the first of them is the rest of
the word that the scan stands in. -/
def scan : Mode → Text → Except Error (List Text)
  | .between, [] => .ok []
  | .word, [] => .ok [[]]
  | .quotation _, [] => .error .openQuotation
  | .escape, [] => .error .openEscape
  | .quotedEscape, [] => .error .openEscape
  | .between, c :: t =>
    if isSeparator c then scan .between t
    else if c = '\\' then scan .escape t
    else if isQuotationMark c then scan (.quotation c) t
    else (scan .word t).map (push c)
  | .word, c :: t =>
    if isSeparator c then (scan .between t).map ([] :: ·)
    else if c = '\\' then scan .escape t
    else if isQuotationMark c then scan (.quotation c) t
    else (scan .word t).map (push c)
  | .quotation mark, c :: t =>
    if c = mark then scan .word t
    -- inside single quotation marks a backslash is a character like any other
    else if c = '\\' && mark = '\x22' then scan .quotedEscape t
    else (scan (.quotation mark) t).map (push c)
  | .escape, c :: t => (scan .word t).map (push c)
  | .quotedEscape, c :: t =>
    if c = '\\' || c = '\x22' then (scan (.quotation '\x22') t).map (push c)
    else (scan (.quotation '\x22') t).map fun words => push '\\' (push c words)

/-- The words of a line. -/
def split (line : Text) : Except Error (List Text) :=
  scan .between line

end Words

end DirectoryListing
