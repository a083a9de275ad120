import DirectoryListing.Text.Basic

/-!
# Name patterns

A pattern describes whole names. An asterisk stands for any run of characters, a question mark for
any one character, and a set in square brackets for one of its members; every other character
stands for itself, and so does a bracket that no set follows. A name that starts with a dot is
described only by a pattern that starts with one too.

## Main definitions

* `CharSpan`, `CharSet`, `CharSet.ofBody`: the sets that brackets hold
* `Glob.ofPattern p`: the pieces of a pattern
* `Glob.accepts pieces t`: the pieces describe the whole of `t`
* `Glob.describes p name`: the pattern describes the name

## Implementation notes

Whether pieces describe a text is found for all ends of the text at once, from the last piece to
the first, so that the time is the product of the two lengths whatever the pattern.
-/

namespace DirectoryListing

/-! ## Sets -/

/-- A span of characters: from `first` to `last`, or `first` alone when there is no `last`. -/
structure CharSpan where
  first : Char
  last : Option Char

namespace CharSpan

/-- The character lies in the span. -/
def has (s : CharSpan) (c : Char) : Bool :=
  s.first ≤ c && c ≤ s.last.getD s.first

/-- The span holds a character at all: its ends stand in order. -/
def isProper (s : CharSpan) : Bool :=
  s.has s.first

end CharSpan

/-- A set of characters: those in one of the spans, or those outside all of them. -/
structure CharSet where
  complement : Bool
  spans : List CharSpan

namespace CharSet

/-- The set of one character. -/
def only (c : Char) : CharSet := ⟨false, [⟨c, none⟩]⟩

/-- The set of all characters. -/
def all : CharSet := ⟨true, []⟩

/-- Membership: in one of the spans, unless the set is a complement. -/
def has (s : CharSet) (c : Char) : Bool :=
  s.spans.any (·.has c) != s.complement

/-- The spans in the body of a set. A hyphen between two characters makes a range, anywhere else
it is a member like any other. -/
def spansOf : Text → List CharSpan
  | first :: '-' :: last :: body => ⟨first, some last⟩ :: spansOf body
  | c :: body => ⟨c, none⟩ :: spansOf body
  | [] => []

/-- The set of the given spans, where an exclamation mark that has come first makes a complement
here too. A range that starts with it is then no range, but the hyphen and its last character. -/
def ofSpans : List CharSpan → CharSet
  | ⟨'!', none⟩ :: spans => ⟨true, spans⟩
  | ⟨'!', some last⟩ :: spans => ⟨true, ⟨'-', none⟩ :: ⟨last, none⟩ :: spans⟩
  | spans => ⟨false, spans⟩

/-- The set with the given body: a complement after an exclamation mark. Ranges whose ends are in
the wrong order hold nothing and are dropped first, so that an exclamation mark after them alone
stands at the front. -/
def ofBody : Text → CharSet
  | '!' :: body => ⟨true, (spansOf body).filter (·.isProper)⟩
  | body => ofSpans ((spansOf body).filter (·.isProper))

end CharSet

/-! ## Patterns -/

namespace Glob

/-- What a piece of a pattern stands for: any run of characters, or one character of a set. -/
inductive Piece where
  | run
  | one (s : CharSet)

/-- The text up to the first closing bracket, and the text after it. -/
def untilBracket : Text → Option (Text × Text)
  | [] => none
  | ']' :: rest => some ([], rest)
  | c :: rest => (untilBracket rest).map fun (body, rest) => (c :: body, rest)

/-- The body of the set that a text after an opening bracket starts with, and the text after the
closing one. A closing bracket at the start of the body, or after the exclamation mark there, is
a member. -/
def setBody : Text → Option (Text × Text)
  | '!' :: ']' :: rest => (untilBracket rest).map fun (body, rest) => ('!' :: ']' :: body, rest)
  | ']' :: rest => (untilBracket rest).map fun (body, rest) => (']' :: body, rest)
  | '!' :: rest => (untilBracket rest).map fun (body, rest) => ('!' :: body, rest)
  | rest => untilBracket rest

theorem length_of_untilBracket {t body rest : Text} (h : untilBracket t = some (body, rest)) :
    rest.length < t.length := by
  fun_induction untilBracket t generalizing body with
  | case1 => simp at h
  | case2 r => simp_all
  | case3 c r _ ih =>
    obtain ⟨⟨b, r'⟩, hb, heq⟩ := Option.map_eq_some_iff.1 h
    obtain ⟨-, rfl⟩ := Prod.mk.inj heq
    have := ih hb
    simp only [List.length_cons]
    omega

theorem length_of_setBody {t body rest : Text} (h : setBody t = some (body, rest)) :
    rest.length < t.length := by
  unfold setBody at h
  split at h
  all_goals first
    | (obtain ⟨⟨b, r'⟩, hb, heq⟩ := Option.map_eq_some_iff.1 h
       obtain ⟨-, rfl⟩ := Prod.mk.inj heq
       have := length_of_untilBracket hb
       simp only [List.length_cons]
       omega)
    | exact length_of_untilBracket h

/-- The pieces of a pattern, in order. -/
def ofPattern : Text → List Piece
  | [] => []
  | '*' :: rest => .run :: ofPattern rest
  | '?' :: rest => .one .all :: ofPattern rest
  | '[' :: rest =>
    match _h : setBody rest with
    | some (body, rest') => .one (.ofBody body) :: ofPattern rest'
    -- no bracket closes the set, so this one stands for itself
    | none => .one (.only '[') :: ofPattern rest
  | c :: rest => .one (.only c) :: ofPattern rest
termination_by t => t.length
decreasing_by
  all_goals simp only [List.length_cons]
  all_goals try omega
  have := length_of_setBody _h
  omega

/-! ## Matching

A row says of every end of a text, the longest first, whether some pieces describe it. -/

/-- The row of no pieces: they describe the empty end alone. -/
def emptyRow : Text → List Bool
  | [] => [true]
  | _ :: t => false :: emptyRow t

/-- The row with a set in front: a member of it, and then an end that the row describes. -/
def setRow (s : CharSet) : Text → List Bool → List Bool
  | c :: t, _ :: row => (s.has c && row.headD false) :: setRow s t row
  | _, _ => [false]

/-- The row with a run in front: any end of an end that the row describes. -/
def runRow : List Bool → List Bool
  | [] => []
  | b :: row =>
    let later := runRow row
    (b || later.headD false) :: later

/-- The row of the given pieces. -/
def row (t : Text) : List Piece → List Bool
  | [] => emptyRow t
  | .one s :: pieces => setRow s t (row t pieces)
  | .run :: pieces => runRow (row t pieces)

/-- The pieces, in order, describe the whole text. -/
def accepts (pieces : List Piece) (t : Text) : Bool :=
  (row t pieces).headD false

/-- The pattern describes the name: its pieces do, and a leading dot of the name stands in the
pattern. -/
def describes (pattern name : Text) : Bool :=
  (name.head? != some '.' || pattern.head? == some '.') && accepts (ofPattern pattern) name

end Glob

end DirectoryListing
