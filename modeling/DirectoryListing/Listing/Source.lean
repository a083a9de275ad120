import DirectoryListing.Encoding
import DirectoryListing.Listing.Assembly

/-!
# Sources of listings

A listing comes as a text, as lines or as a file. The bytes of a file are read in an encoding, and
its lines may end in any of the usual ways.

## Main definitions

* `Listing.Options`: how listings are read
* `Listing.Source`: where a listing comes from
* `Listing.load options source`: the tree of a listing
-/

namespace DirectoryListing.Listing

/-! ## Options -/

/-- How listings are read: the name of the encoding of files, and whether blocks that were never
announced are errors. -/
structure Options where
  encoding : Text
  strict : Bool
  deriving DecidableEq, Repr

namespace Options

/-- Reading strictly and in UTF-8. -/
def default : Options := ⟨"utf-8".toList, true⟩

/-- What is wrong with the options. -/
def problems (o : Options) : List Text :=
  match Encoding.ofName? o.encoding with
  | some _ => []
  | none => ["unknown encoding: ".toList ++ o.encoding]

end Options

/-! ## Sources -/

/-- Why a file cannot be read. -/
inductive FileError where
  | missing
  | notADirectory
  | isADirectory
  | nameTooLong
  deriving DecidableEq, Repr

/-- The text of a file error, for the path that was asked for. -/
def FileError.message (e : FileError) (path : Text) : Text :=
  let reason := match e with
    | .missing => "[Errno 2] No such file or directory: ".toList
    | .notADirectory => "[Errno 20] Not a directory: ".toList
    | .isADirectory => "[Errno 21] Is a directory: ".toList
    | .nameTooLong => "[Errno 36] File name too long: ".toList
  reason ++ path.quoted

/-- Where a listing comes from: a text, whose lines end at line feeds; lines, which may hold
anything; or a file, by its path and its bytes. -/
inductive Source where
  | text (t : Text)
  | lines (ts : List Text)
  | file (path : Text) (contents : Except FileError (List UInt8))

/-- The record of opening a file. -/
def openRecord (path : Text) : Log.Record :=
  ⟨.debug, .listing, "Reading listing from ".toList ++ path⟩

/-- The lines of a file with the given bytes. -/
def fileLines (e : Encoding) (bytes : List UInt8) : List Text :=
  (e.decode bytes).unifiedLineEnds.lines

/-- A listing's tree, or the fault that it has instead, and the records of reading it. -/
structure Loaded where
  result : Except Fault Tree
  log : List Log.Record

/-- An outcome with faults and records for its errors and notes. -/
def Outcome.loaded (o : Outcome) : Loaded :=
  ⟨o.result.mapError Error.fault, o.notes.map Note.record⟩

/-- Reads a listing. The encoding must be known, whether it is needed or not. -/
def load (options : Options) (source : Source) : Loaded :=
  match Encoding.ofName? options.encoding with
  | none => ⟨.error (.badOptions options.problems), []⟩
  | some encoding =>
    match source with
    | .text t => (parse options.strict t.lines).loaded
    | .lines ts => (parse options.strict ts).loaded
    | .file path contents =>
      match contents with
      | .error e => ⟨.error (.file (e.message path)), [openRecord path]⟩
      | .ok bytes =>
        let loaded := (parse options.strict (fileLines encoding bytes)).loaded
        { loaded with log := openRecord path :: loaded.log }

end DirectoryListing.Listing
