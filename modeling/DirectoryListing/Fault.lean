import DirectoryListing.Text.Basic

/-!
# Faults

What can go wrong, in the form in which it is told to a caller: its kind, the parts that the kind
has, and one text. The modules that find a fault have causes of their own, each with its fault.

## Main definitions

* `Fault`: the faults
* `Fault.message f`: the text of a fault
* `Fault.Kind`, `Fault.Kind.lineage k`: the kinds, and the wider kinds that each falls under
-/

namespace DirectoryListing

/-- A fault. The last four are misuse of an operation rather than faults of a listing, a path, a
query or a command. -/
inductive Fault where
  /-- A line of a listing, with its number where it is known. -/
  | malformedLine (line : Text) (number : Option Int) (reason : Text)
  /-- A listing that describes nothing. -/
  | emptyListing (message : Text)
  /-- Any other fault of a listing. -/
  | listing (message : Text)
  /-- A name that a directory does not hold. -/
  | unknownEntry (name : Text)
  /-- A path that goes on below a file. -/
  | notDirectory (name path : Text)
  /-- Any other fault of a path. -/
  | resolution (message : Text)
  /-- A query that cannot be read, with the token that is wrong, if one is. -/
  | query (message : Text) (token : Option Text)
  /-- A command that cannot be obeyed. -/
  | command (message : Text)
  /-- Any other fault of this library's own. -/
  | other (message : Text)
  /-- A value that an operation does not take. -/
  | badValue (message : Text)
  /-- A value of the wrong kind. -/
  | badType (message : Text)
  /-- A place outside a list. -/
  | badIndex (message : Text)
  /-- A file that cannot be read. -/
  | file (message : Text)
  deriving DecidableEq, Repr

namespace Fault

/-- The reason of a malformed line when no other is given. -/
def defaultReason : Text := "malformed listing line".toList

/-- The message of an empty listing when no other is given. -/
def emptyListingMessage : Text := "listing contains no directory blocks".toList

/-- A malformed line; without a reason, or with an empty one, it has the default one. -/
def ofLine (line : Text) (number : Option Int) (reason : Option Text) : Fault :=
  match reason with
  | none | some [] => malformedLine line number defaultReason
  | some reason => malformedLine line number reason

/-- The text of a fault. -/
def message : Fault → Text
  | malformedLine line number reason =>
    let place : Text := match number with
      | none => []
      | some n => " (line ".toList ++ Text.ofInt n ++ ")".toList
    reason ++ place ++ " - ".toList ++ line
  | unknownEntry name => "no such file or directory - ".toList ++ name
  | notDirectory name path =>
    "not a directory - ".toList ++ name ++ " (while resolving ".toList ++ path ++ ")".toList
  | query text _ => text
  | emptyListing text | listing text | resolution text | command text | other text
  | badValue text | badType text | badIndex text | file text => text

/-- A list of problems with options, told as one. -/
def badOptions (problems : List Text) : Fault :=
  badValue ("Invalid configuration: ".toList ++ Text.joined "; ".toList problems)

/-! ## Kinds -/

/-- The kinds of this library's own faults. -/
inductive Kind where
  | malformedLine
  | emptyListing
  | listing
  | unknownEntry
  | notDirectory
  | resolution
  | query
  | command
  | any
  deriving DecidableEq, Repr

/-- The next wider kind. -/
def Kind.wider? : Kind → Option Kind
  | malformedLine | emptyListing => some listing
  | unknownEntry | notDirectory => some resolution
  | listing | resolution | query | command => some any
  | any => none

/-- The wider kinds of a kind within the given number of steps, itself first. -/
def Kind.lineageWithin : Nat → Kind → List Kind
  | 0, k => [k]
  | n + 1, k => k :: ((k.wider?.map (lineageWithin n)).getD [])

/-- A kind and the wider ones, up to the widest. -/
def Kind.lineage (k : Kind) : List Kind :=
  k.lineageWithin 2

/-- Every kind falls under the widest one. -/
theorem Kind.any_mem_lineage (k : Kind) : .any ∈ k.lineage := by
  cases k <;> decide

/-- The kind of a fault; misuse of an operation has none. -/
def kind? : Fault → Option Kind
  | .malformedLine .. => some .malformedLine
  | .emptyListing _ => some .emptyListing
  | .listing _ => some .listing
  | .unknownEntry _ => some .unknownEntry
  | .notDirectory .. => some .notDirectory
  | .resolution _ => some .resolution
  | .query .. => some .query
  | .command _ => some .command
  | .other _ => some .any
  | .badValue _ | .badType _ | .badIndex _ | .file _ => none

end Fault

end DirectoryListing
