import DirectoryListing.Text.Basic

/-!
# Log records

Operations say what they did in records. A record has a level, and a reader asks for the records
of one level and of those above it.

## Main definitions

* `Log.Level`, `Log.Area`, `Log.Record`: a record and its parts
* `Log.Record.line r`: the line in which a record is written
* `Log.atLeast level records`: the records of a level and above
-/

namespace DirectoryListing.Log

/-- How much a record matters. -/
inductive Level where
  | debug
  | info
  | warning
  deriving DecidableEq, Repr

/-- The rank of a level among the levels. -/
def Level.rank : Level → Nat
  | debug => 0
  | info => 1
  | warning => 2

/-- The name of a level, as it is written in front of a record. -/
def Level.name : Level → Text
  | debug => "DEBUG".toList
  | info => "INFO".toList
  | warning => "WARNING".toList

/-- The part of the program that a record comes from. -/
inductive Area where
  | listing
  | query
  | search
  | shell
  deriving DecidableEq, Repr

/-- The name of an area, as it is written in front of a record. -/
def Area.name : Area → Text
  | listing => "lslrtree.listing".toList
  | query => "lslrtree.query".toList
  | search => "lslrtree.search".toList
  | shell => "lslrtree.shell".toList

/-- A log record. -/
structure Record where
  level : Level
  area : Area
  message : Text
  deriving DecidableEq, Repr

/-- The line of a record: its level, its area and its message. -/
def Record.line (r : Record) : Text :=
  r.level.name ++ ' ' :: r.area.name ++ ": ".toList ++ r.message

/-- The records of the given level and above. -/
def atLeast (level : Level) (records : List Record) : List Record :=
  records.filter fun r => level.rank ≤ r.level.rank

end DirectoryListing.Log
