import DirectoryListing.Text.Quoted

/-!
# Loose values

A caller may hand over any value where an expression or a traversal order is expected. Such a
value is only looked at to name it in an error text: bare, or with its texts quoted.

## Main definitions

* `Value`: the values
* `Value.quoted v`: how `v` is written inside another value
* `Value.display v`: how `v` is written alone; a text is then not quoted
-/

namespace DirectoryListing

/-- A value of no fixed kind. A decimal is `digits` times ten to the power of `exponent`, with a
sign that zero has as well. -/
inductive Value where
  | none
  | truth (b : Bool)
  | integer (n : Int)
  | decimal (negative : Bool) (digits : Nat) (exponent : Int)
  | text (t : Text)
  | list (items : List Value)
  | record (fields : List (Text × Value))
  deriving Inhabited

namespace Value

/-- A decimal that is not a whole number in full, and with a power of ten below `0.0001` and from
`10000000000000000` up; a whole one keeps one zero after the point. -/
def decimalText (negative : Bool) (digits : Nat) (exponent : Int) : Text :=
  let figures := Text.ofNat digits
  let kept := Text.dropEndWhile (· = '0') figures
  let sign : Text := if negative then ['-'] else []
  if kept.isEmpty then sign ++ "0.0".toList
  else
    -- the power of ten of the first digit
    let first : Int := exponent + figures.length - 1
    let tail : Text := kept.drop 1
    if -4 ≤ first ∧ first < 16 then
      if first < 0 then
        sign ++ "0.".toList ++ List.replicate (first.natAbs - 1) '0' ++ kept
      else
        let whole := first.toNat + 1
        let padded := kept ++ List.replicate (whole - kept.length) '0'
        let fraction := padded.drop whole
        sign ++ padded.take whole ++ '.' :: (if fraction.isEmpty then ['0'] else fraction)
    else
      let power := Text.ofNat first.natAbs
      sign ++ kept.take 1 ++ (if tail.isEmpty then [] else '.' :: tail) ++ 'e' ::
        (if first < 0 then '-' else '+') :: List.replicate (2 - power.length) '0' ++ power

mutual

/-- The value as it is written inside another one. -/
def quoted : Value → Text
  | none => "None".toList
  | truth true => "True".toList
  | truth false => "False".toList
  | integer n => Text.ofInt n
  | decimal negative digits exponent => decimalText negative digits exponent
  | text t => t.quoted
  | list items => Text.bracketed (quotedItems items)
  | record fields => Text.braced (quotedFields fields)

/-- The values of a list, each as it is written inside another. -/
def quotedItems : List Value → List Text
  | [] => []
  | item :: items => item.quoted :: quotedItems items

/-- The fields of a record, each as its quoted name, a colon and its value. -/
def quotedFields : List (Text × Value) → List Text
  | [] => []
  | (name, value) :: fields => (name.quoted ++ ": ".toList ++ value.quoted) :: quotedFields fields

end

/-- The value as it is written alone. -/
def display : Value → Text
  | text t => t
  | v => v.quoted

end Value

end DirectoryListing
