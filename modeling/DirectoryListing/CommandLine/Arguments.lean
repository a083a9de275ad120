import DirectoryListing.Fault
import DirectoryListing.Text.DecimalDigit
import DirectoryListing.Text.Quoted

/-!
# Command-line arguments

The arguments name one listing file and may hold switches before and after it. A long switch may be
cut short as long as no other one starts the same way, and takes its value after an equals sign or
as the next argument. Short switches may stand together behind one hyphen, the last of them with
its value; an equals sign may follow the first of them. Two hyphens alone end the switches, and as
the value of a switch they leave it without one.

## Main definitions

* `Switch`, `Switch.table`: the switches and their spellings
* `Misuse`: what is wrong with arguments
* `Valueless`: a switch that is left without its value
* `Item`, `Item.ofArgument`: what an argument is, seen by itself
* `Cluster`, `Cluster.read`: the short switches in one argument
* `Arguments`, `Arguments.read`: what all arguments ask for

## Implementation notes

These are the rules of `argparse` as the early releases of its version 3.11 have them. Release
3.11.10 differs in three points. There, two hyphens that are attached to a switch are its value. A
character behind a short switch that is no switch itself, as in `-vx`, is an unrecognized argument
and not an unwanted value. And what stands behind an equals sign after a short switch that takes no
value, as in `-v=v`, is an unwanted value and not a switch.
-/

namespace DirectoryListing.CommandLine

/-! ## Switches -/

/-- What a switch asks for. -/
inductive Switch where
  | help
  | encoding
  | lenient
  | command
  | verbose
  | version
  deriving DecidableEq, Repr

namespace Switch

/-- The spellings of the switches. -/
def table : List (Text × Switch) := [
  ("-h".toList, help), ("--help".toList, help), ("--encoding".toList, encoding),
  ("--lenient".toList, lenient), ("-c".toList, command), ("--command".toList, command),
  ("-v".toList, verbose), ("--verbose".toList, verbose), ("--version".toList, version)]

/-- The switch with a spelling. -/
def spelled? (t : Text) : Option Switch :=
  table.lookup t

/-- The switch takes a value. -/
def takesValue : Switch → Bool
  | encoding | command => true
  | _ => false

/-- All spellings of a switch, with slashes between them. -/
def title (s : Switch) : Text :=
  Text.joined ['/'] ((table.filter (·.2 = s)).map (·.1))

end Switch

/-! ## Misuse -/

/-- What is wrong with the arguments. -/
inductive Misuse where
  /-- A long switch cut so short that several start like it. -/
  | ambiguous (argument : Text) (candidates : List Text)
  /-- A switch without the value that it takes. -/
  | missingValue (s : Switch)
  /-- A switch with a value that it does not take. -/
  | unwantedValue (s : Switch) (value : Text)
  /-- No listing. -/
  | noListing
  /-- Arguments that mean nothing. -/
  | unrecognized (arguments : List Text)
  deriving DecidableEq, Repr

/-- The text of a misuse. -/
def Misuse.message : Misuse → Text
  | ambiguous argument candidates =>
    "ambiguous option: ".toList ++ argument ++ " could match ".toList ++
      Text.joined ", ".toList candidates
  | missingValue s => "argument ".toList ++ s.title ++ ": expected one argument".toList
  | unwantedValue s value =>
    "argument ".toList ++ s.title ++ ": ignored explicit argument ".toList ++ value.quoted
  | noListing => "the following arguments are required: listing".toList
  | unrecognized arguments =>
    "unrecognized arguments: ".toList ++ Text.joined [' '] arguments

/-- A switch whose value is two hyphens alone. This is no misuse of the arguments, but a program
that needs the value does not find one. -/
inductive Valueless where
  | command
  | encoding
  deriving DecidableEq, Repr

/-- The fault of a value that is not there. -/
def Valueless.fault : Valueless → Fault
  | command => .badType "can only concatenate list (not \"str\") to list".toList
  | encoding => .badType "lookup() argument must be str, not list".toList

/-! ## Single arguments -/

/-- What an argument is, seen by itself. -/
inductive Item where
  /-- Anything that is not a switch: a listing, or the value of a switch before it. -/
  | plain (t : Text)
  /-- A switch and the text behind its equals sign, if it has one. -/
  | single (s : Switch) (value : Option Text)
  /-- A short switch and the text that is attached to it. -/
  | short (s : Switch) (attached : Text)
  /-- What looks like a switch and is none. -/
  | unknown (t : Text)
  /-- The end of the switches. -/
  | separator
  deriving DecidableEq, Repr

namespace Item

/-- A text up to its first equals sign, and what is behind that, if it has one. -/
def cutAtEquals (t : Text) : Text × Option Text :=
  let name := t.takeWhile (· ≠ '=')
  (name, if t.contains '=' then some (t.drop (name.length + 1)) else none)

/-- A number with a minus sign, which is no switch. -/
def isNegativeNumber (t : Text) : Bool :=
  match if t.getLast? = some '\n' then t.dropLast else t with
  | '-' :: number =>
    match Text.split '.' number with
    | [whole] => !whole.isEmpty && whole.all isDecimalDigit
    | [whole, fraction] =>
      whole.all isDecimalDigit && !fraction.isEmpty && fraction.all isDecimalDigit
    | _ => false
  | _ => false

/-- What a text is that starts like a switch and names none. -/
def ofStray (t : Text) : Item :=
  if isNegativeNumber t || t.contains ' ' then .plain t else .unknown t

/-- What an argument is that starts with two hyphens and goes on. -/
def ofLong (t : Text) : Except Misuse Item :=
  let (name, value) := cutAtEquals t
  match Switch.spelled? t, Switch.spelled? name with
  | some s, _ => .ok (.single s none)
  | none, some s => .ok (.single s value)
  | none, none =>
    match Switch.table.filter fun (spelling, _) => name.isPrefixOf spelling with
    | [] => .ok (ofStray t)
    | [(_, s)] => .ok (.single s value)
    | several => .error (.ambiguous t (several.map (·.1)))

/-- What an argument is that starts with the short switch `s`, given the text behind that. -/
def ofShort (s : Switch) : Text → Item
  | [] => .single s none
  | ['='] => .single s (some [])
  | '=' :: t => .short s t
  | t => .short s t

/-- What an argument is, seen by itself and before the end of the switches. -/
def ofArgument (t : Text) : Except Misuse Item :=
  match t with
  | ['-', '-'] => .ok .separator
  | '-' :: '-' :: _ => ofLong t
  | '-' :: c :: tail =>
    match Switch.spelled? ['-', c] with
    | some s => .ok (ofShort s tail)
    | none => .ok (ofStray t)
  | _ => .ok (.plain t)

/-- What the arguments are. After the end of the switches none of them is one. -/
def ofArguments : List Text → Except Misuse (List Item)
  | [] => .ok []
  | t :: ts =>
    match ofArgument t with
    | .error e => .error e
    | .ok .separator => .ok (.separator :: ts.map .plain)
    | .ok item => (ofArguments ts).map (item :: ·)

end Item

/-! ## Short switches behind one hyphen -/

/-- The switches in an argument of short ones: those before the last, the last, and the value that
is attached to it, if one is. -/
structure Cluster where
  flags : List Switch
  last : Switch
  value : Option Text
  deriving DecidableEq, Repr

/-- The switches in an argument, given the first of them and the text behind that: what is attached
to a switch without a value is the next switch. -/
def Cluster.read (s : Switch) : Text → Except Misuse Cluster
  | [] => .ok ⟨[], s, none⟩
  | c :: t =>
    if s.takesValue then .ok ⟨[], s, some (c :: t)⟩
    else
      match Switch.spelled? ['-', c] with
      | none => .error (.unwantedValue s (c :: t))
      | some next => (read next t).map fun k => { k with flags := s :: k.flags }

/-! ## All arguments -/

/-- What the arguments ask for, as far as they are read: the listing, how it is read, the commands
to obey, how much to log, and the arguments that mean nothing. The encoding and a command may have
lost their values. -/
structure Progress where
  listing : Option Text
  encoding : Option Text
  lenient : Bool
  commands : List (Option Text)
  verbosity : Nat
  extras : List Text

/-- Why no arguments come of the reading: they are misused, a value is not there, or they ask for
the help text or the version alone. -/
inductive Stop where
  | misuse (m : Misuse)
  | valueless (v : Valueless)
  | help
  | version
  deriving DecidableEq, Repr

namespace Progress

/-- Nothing read yet. -/
def start : Progress := ⟨none, some "utf-8".toList, false, [], 0, []⟩

/-- One more argument that means nothing. -/
def extra (p : Progress) (t : Text) : Progress :=
  { p with extras := p.extras ++ [t] }

/-- A switch without a value. -/
def flag (p : Progress) : Switch → Except Stop Progress
  | .help => .error .help
  | .version => .error .version
  | .lenient => .ok { p with lenient := true }
  | .verbose => .ok { p with verbosity := p.verbosity + 1 }
  | .encoding | .command => .ok p

/-- Switches without a value, in order. -/
def flags (p : Progress) : List Switch → Except Stop Progress
  | [] => .ok p
  | s :: ss =>
    match p.flag s with
    | .error e => .error e
    | .ok p' => p'.flags ss

/-- A switch with a value, which two hyphens alone are not. -/
def value (p : Progress) (s : Switch) (t : Text) : Progress :=
  let t := if t = ['-', '-'] then none else some t
  match s with
  | .encoding => { p with encoding := t }
  | .command => { p with commands := p.commands ++ [t] }
  | _ => p

/-- Obeys the switches of one argument as soon as the value of the last of them is there. Until then
they wait, as the second part of the answer. -/
def obey (p : Progress) (k : Cluster) : Except Stop (Progress × Option Cluster) :=
  match k.last.takesValue, k.value with
  | true, none => .ok (p, some k)
  | true, some t => (p.flags k.flags).map fun p' => (p'.value k.last t, none)
  | false, none => (p.flags (k.flags ++ [k.last])).map (·, none)
  | false, some t => .error (.misuse (.unwantedValue k.last t))

/-- Obeys the switches of an item, if it has some. -/
def switches (p : Progress) : Item → Except Stop (Progress × Option Cluster)
  | .single s value => p.obey ⟨[], s, value⟩
  | .short s attached =>
    match Cluster.read s attached with
    | .error m => .error (.misuse m)
    | .ok k => p.obey k
  | .plain _ | .unknown _ | .separator => .ok (p, none)

/-- Reads items in order. Switches that wait for a value take a plain item and nothing else. The
first other plain item is the listing, and takes the end of the switches with it that stands next
to it. -/
def readItems (p : Progress) : Option Cluster → List Item → Except Stop Progress
  | none, [] => .ok p
  | some k, [] => .error (.misuse (.missingValue k.last))
  | some k, .plain t :: rest =>
    match p.obey { k with value := some t } with
    | .error e => .error e
    | .ok (p', waiting) => readItems p' waiting rest
  | some k, _ :: _ => .error (.misuse (.missingValue k.last))
  | none, .plain t :: rest =>
    match p.listing, rest with
    -- there is one listing only
    | some _, rest => readItems (p.extra t) none rest
    | none, .separator :: rest => readItems { p with listing := some t } none rest
    | none, rest => readItems { p with listing := some t } none rest
  | none, .separator :: rest =>
    match p.listing, rest with
    | none, .plain t :: rest => readItems { p with listing := some t } none rest
    | _, rest => readItems (p.extra ['-', '-']) none rest
  | none, .unknown t :: rest => readItems (p.extra t) none rest
  | none, item :: rest =>
    match p.switches item with
    | .error e => .error e
    | .ok (p', waiting) => readItems p' waiting rest

end Progress

/-- What the arguments ask for: the listing, the name of its encoding, whether it is read leniently,
the commands to obey, and how much to log. -/
structure Arguments where
  listing : Text
  encoding : Text
  lenient : Bool
  commands : List Text
  verbosity : Nat
  deriving DecidableEq, Repr

/-- The arguments for a listing, once all have been read. The commands are looked at before the
encoding is. -/
def Progress.finish (p : Progress) (listing : Text) : Except Stop Arguments :=
  match p.commands.mapM id, p.encoding with
  | none, _ => .error (.valueless .command)
  | some _, none => .error (.valueless .encoding)
  | some commands, some encoding => .ok ⟨listing, encoding, p.lenient, commands, p.verbosity⟩

/-- Reads all arguments. A missing listing is told before arguments that mean nothing. -/
def Arguments.read (arguments : List Text) : Except Stop Arguments :=
  match Item.ofArguments arguments with
  | .error m => .error (.misuse m)
  | .ok items =>
    match Progress.start.readItems none items with
    | .error e => .error e
    | .ok p =>
      match p.listing, p.extras with
      | none, _ => .error (.misuse .noListing)
      | some listing, [] => p.finish listing
      | some _, extras => .error (.misuse (.unrecognized extras))

end DirectoryListing.CommandLine
