import DirectoryListing.Listing.Source

/-!
# Folders

A folder of files as seen from within, when it is all that a program can read: files by their paths,
and the folders on the way to them. Above the folder there are folders and nothing else.

## Main definitions

* `Folder`: the files of a folder
* `Folder.Place`, `Folder.go`: where a path is, and where one more segment leads
* `Folder.read f p`: the bytes that a path leads to
-/

namespace DirectoryListing.CommandLine

/-- The files of a folder, by their paths inside it. -/
structure Folder where
  files : List (Text × List UInt8)

namespace Folder

/-! ## What is in a folder -/

/-- What stands under some names in a folder. -/
inductive Content where
  | file (bytes : List UInt8)
  | folder
  deriving DecidableEq

/-- The names on the way to a file of the folder. -/
def way (p : Text) : List Text :=
  (Path.segments p).filter fun s => s ≠ [] && s ≠ ['.']

/-- What stands under the given names, if anything does. -/
def content (f : Folder) (names : List Text) : Option Content :=
  match f.files.find? fun (p, _) => way p = names with
  | some (_, bytes) => some (.file bytes)
  | none =>
    -- the folder itself is there even when it holds no file
    if names.isEmpty || f.files.any fun (p, _) => names.isPrefixOf (way p) then some .folder
    else none

/-! ## Ways through a folder -/

/-- Where a path is: in the folder, by the names on the way there, or in a folder above it. -/
inductive Place where
  | inside (names : List Text)
  | above
  deriving DecidableEq, Repr

/-- What stands at a place, if anything does. -/
def contentAt (f : Folder) : Place → Option Content
  | .inside names => f.content names
  | .above => some .folder

/-- The most bytes that a name may have. -/
def longestName : Nat := 255

/-- The most bytes that a path may have. -/
def longestPath : Nat := 4095

/-- The number of bytes of a text in UTF-8. -/
def byteCount : Text → Nat
  | [] => 0
  | c :: t => c.utf8Size + byteCount t

/-- The place where a name leads from a folder. Nothing that can be named is known above. -/
def enter (here : Place) (name : Text) : Except Listing.FileError Place :=
  if longestName < byteCount name then .error .nameTooLong
  else
    match here with
    | .inside names => .ok (.inside (names ++ [name]))
    | .above => .error .missing

/-- The place where one more segment leads. It leads on from a folder only: an empty one and a dot
stay there, two dots go up, and anything else is a name. -/
def go (f : Folder) (here : Place) (segment : Text) : Except Listing.FileError Place :=
  match f.contentAt here with
  | none => .error .missing
  | some (.file _) => .error .notADirectory
  | some .folder =>
    if segment = [] ∨ segment = ['.'] then .ok here
    else if segment = ['.', '.'] then
      match here with
      | .inside [] | .above => .ok .above
      | .inside names => .ok (.inside names.dropLast)
    else enter here segment

/-- The place where a path leads; an absolute one starts above the folder. -/
def place (f : Folder) (p : Text) : Except Listing.FileError Place :=
  let start := if p.head? = some '/' then .above else .inside []
  (Path.segments p).foldlM f.go start

/-- The bytes of the file that a path leads to. The empty path leads nowhere. -/
def read (f : Folder) (p : Text) : Except Listing.FileError (List UInt8) :=
  if p = [] then .error .missing
  else if longestPath < byteCount p then .error .nameTooLong
  else
    match f.place p with
    | .error e => .error e
    | .ok here =>
      match f.contentAt here with
      | none => .error .missing
      | some (.file bytes) => .ok bytes
      | some .folder => .error .isADirectory

end Folder

end DirectoryListing.CommandLine
