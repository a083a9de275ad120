import DirectoryListing.Text.Basic

/-!
# Reading bytes as text

The character encodings that a listing file may be read in. Reading never fails: bytes that the
encoding does not allow are read as the replacement character.

## Main definitions

* `Encoding`, `Encoding.ofName?`: the encodings and the names they go by
* `Encoding.key name`: what is compared of a name
* `Encoding.decode e bytes`: the text that the bytes stand for
* `Text.unifiedLineEnds t`: the text with every line end written as one line feed

## Main results

* `Encoding.ofName?_eq_some_iff`: the encoding of a name is the one that goes by its key

## Implementation notes

There are some hundred encodings more that a file could be read in. They are out of scope: their
names are taken for names of no encoding.

In UTF-8, one replacement character stands for a longest run of bytes that starts a character and
cannot be continued, or for one byte that starts none. The reading keeps, between bytes, how many
bytes the character still lacks and the least and the greatest byte that may come next.
-/

namespace DirectoryListing

/-- A character encoding. -/
inductive Encoding where
  | utf8
  | latin1
  | ascii
  deriving DecidableEq, Repr

namespace Encoding

/-! ## Names -/

/-- A character that is kept of a name: an ASCII letter, a digit or a dot. -/
def isKept (c : Char) : Bool := c.isAlphanum || c = '.'

/-- What is compared of a name: the characters that are kept of it, in small letters, with one
underscore wherever others stand between them. -/
def key (name : Text) : Text :=
  let marked := name.lowercase.map fun c => if isKept c then c else '_'
  Text.joined ['_'] ((Text.split '_' marked).filter (· ≠ []))

/-- The key of an encoding's own name. -/
def title : Encoding → Text
  | utf8 => "utf_8".toList
  | latin1 => "latin_1".toList
  | ascii => "ascii".toList

/-- The keys of the other names of an encoding. -/
def aliases : Encoding → List Text
  | utf8 => ["u8".toList, "utf".toList, "utf8".toList, "utf8_ucs2".toList, "utf8_ucs4".toList,
      "cp65001".toList]
  | latin1 => ["8859".toList, "cp819".toList, "csisolatin1".toList, "ibm819".toList,
      "iso8859".toList, "iso8859_1".toList, "iso_8859_1".toList, "iso_8859_1_1987".toList,
      "iso_ir_100".toList, "l1".toList, "latin".toList, "latin1".toList]
  | ascii => ["646".toList, "ansi_x3.4_1968".toList, "ansi_x3_4_1968".toList,
      "ansi_x3.4_1986".toList, "cp367".toList, "csascii".toList, "ibm367".toList,
      "iso646_us".toList, "iso_646.irv_1991".toList, "iso_ir_6".toList, "us".toList,
      "us_ascii".toList]

/-- A key with underscores for its dots. -/
def undotted (k : Text) : Text := k.map fun c => if c = '.' then '_' else c

/-- The encoding goes by a key. In the key of another name than its own, dots may stand for
underscores. -/
def goesBy (e : Encoding) (k : Text) : Bool :=
  k = e.title || k ∈ e.aliases || undotted k ∈ e.aliases

/-- The encoding of a name, which holds no null character. The name of an encoding other than these
three is taken for the name of none. -/
def ofName? (name : Text) : Option Encoding :=
  if '\x00' ∈ name then none else [utf8, latin1, ascii].find? (·.goesBy (key name))

/-- The keys of an encoding, with underscores for their dots. -/
def undottedKeys (e : Encoding) : List Text := (e.title :: e.aliases).map undotted

theorem undotted_undotted (k : Text) : undotted (undotted k) = undotted k := by
  rw [undotted, undotted, List.map_map]
  refine List.map_congr_left fun c _ => ?_
  by_cases h : c = '.'
  · rw [Function.comp_apply, if_pos h]
    rfl
  · rw [Function.comp_apply, if_neg h, if_neg h]

theorem undotted_mem_of_goesBy {e : Encoding} {k : Text} (h : e.goesBy k = true) :
    undotted k ∈ e.undottedKeys := by
  simp only [goesBy, Bool.or_eq_true, decide_eq_true_eq] at h
  rcases h with (rfl | h) | h
  · exact List.mem_map_of_mem List.mem_cons_self
  · exact List.mem_map_of_mem (List.mem_cons_of_mem _ h)
  · rw [← undotted_undotted]
    exact List.mem_map_of_mem (List.mem_cons_of_mem _ h)

/-- Two encodings have no key in common, even with underscores for dots. -/
theorem eq_of_mem_undottedKeys {e e' : Encoding} {k : Text} (h : k ∈ e.undottedKeys)
    (h' : k ∈ e'.undottedKeys) : e = e' := by
  have apart : ∀ a b : Encoding, a ≠ b → ∀ k ∈ a.undottedKeys, k ∉ b.undottedKeys := by
    intro a b
    cases a <;> cases b <;> decide
  exact Decidable.byContradiction fun hne => apart e e' hne k h h'

/-- **The encoding of a name** is the one that goes by its key, whichever is looked for first. -/
theorem ofName?_eq_some_iff {name : Text} {e : Encoding} :
    ofName? name = some e ↔ '\x00' ∉ name ∧ e.goesBy (key name) = true := by
  unfold ofName?
  split
  · next h => exact iff_of_false nofun fun hn => hn.1 h
  · next h =>
    rw [and_iff_right h]
    constructor
    · exact List.find?_some
    · intro he
      have found : ([utf8, latin1, ascii].find? (·.goesBy (key name))).isSome := by
        rw [List.find?_isSome]
        exact ⟨e, by cases e <;> decide, he⟩
      obtain ⟨e', he'⟩ := Option.isSome_iff_exists.mp found
      -- what is found also goes by the key, and no other encoding does
      have first := List.find?_some he'
      rw [he', eq_of_mem_undottedKeys (undotted_mem_of_goesBy first) (undotted_mem_of_goesBy he)]

/-- The character read for bytes that stand for none. -/
def replacement : Char := '\uFFFD'

/-! ## UTF-8 -/

/-- Where the reading stands between bytes: between characters, or in one that lacks `owed` more
bytes, the next of them from `least` to `greatest`, with the bits read so far in `bits`. -/
inductive Utf8State where
  | between
  | inside (owed least greatest bits : Nat)

/-- The state after the first byte of a character of several bytes, if the byte is one. -/
def Utf8State.ofLead? (b : Nat) : Option Utf8State :=
  if b < 0xC2 then none
  else if b < 0xE0 then some (.inside 1 0x80 0xBF (b - 0xC0))
  else if b = 0xE0 then some (.inside 2 0xA0 0xBF 0)
  else if b = 0xED then some (.inside 2 0x80 0x9F 0xD)
  else if b < 0xF0 then some (.inside 2 0x80 0xBF (b - 0xE0))
  else if b = 0xF0 then some (.inside 3 0x90 0xBF 0)
  else if b < 0xF4 then some (.inside 3 0x80 0xBF (b - 0xF0))
  else if b = 0xF4 then some (.inside 3 0x80 0x8F 4)
  else none

/-- A byte between characters: the characters that it completes, and the state after it. -/
def startByte (b : Nat) : Text × Utf8State :=
  if b < 0x80 then ([Char.ofNat b], .between)
  else match Utf8State.ofLead? b with
    | some state => ([], state)
    | none => ([replacement], .between)

/-- A byte in any state: the characters that it completes, and the state after it. -/
def nextByte : Utf8State → Nat → Text × Utf8State
  | .between, b => startByte b
  | .inside owed least greatest bits, b =>
    if least ≤ b ∧ b ≤ greatest then
      let bits := bits * 64 + (b - 0x80)
      if owed ≤ 1 then ([Char.ofNat bits], .between)
      else ([], .inside (owed - 1) 0x80 0xBF bits)
    else
      -- the byte is not part of the broken character and may start one of its own
      let (cs, state) := startByte b
      (replacement :: cs, state)

/-- The text of UTF-8 bytes from a given state on. -/
def decodeUtf8 : Utf8State → List UInt8 → Text
  | .between, [] => []
  | .inside .., [] => [replacement]
  | state, b :: bytes =>
    let (cs, state') := nextByte state b.toNat
    cs ++ decodeUtf8 state' bytes

/-! ## All encodings -/

/-- The text that the bytes stand for. -/
def decode : Encoding → List UInt8 → Text
  | utf8, bytes => decodeUtf8 .between bytes
  | latin1, bytes => bytes.map fun b => Char.ofNat b.toNat
  | ascii, bytes => bytes.map fun b => if b.toNat < 0x80 then Char.ofNat b.toNat else replacement

end Encoding

/-- The text with every carriage return, and every line feed after one, written as one line
feed. -/
def Text.unifiedLineEnds : Text → Text
  | '\r' :: '\n' :: t => '\n' :: unifiedLineEnds t
  | '\r' :: t => '\n' :: unifiedLineEnds t
  | c :: t => c :: unifiedLineEnds t
  | [] => []

end DirectoryListing
