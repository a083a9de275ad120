import DirectoryListing.CommandLine.Arguments
import DirectoryListing.Session

/-!
# The program

The program reads its arguments, loads the listing that they name and holds a session over it, with
the commands among the arguments or else with those on its input. It fails when it is misused, when
a value among the arguments is not there and when the listing cannot be loaded, and in no other
case.

## Main definitions

* `Program.Refusal`: why the program says nothing at all
* `Program.Start`: what the program does once it knows its arguments and its listing
* `Program.start`: how it comes to that
* `Program.run`: the whole of it
-/

namespace DirectoryListing.CommandLine

namespace Program

/-! ## Texts -/

/-- The name of the program. -/
def name : Text := "lslrtree".toList

/-- The version line. -/
def versionText : Text := name ++ " 0.1.0\n".toList

/-- How the program is called, in lines. -/
def usage : Text :=
  "usage: lslrtree [-h] [--encoding ENCODING] [--lenient] [-c COMMAND] [-v]\n".toList ++
  "                [--version]\n".toList ++
  "                listing\n".toList

/-- The help text. -/
def helpText : Text :=
  usage ++
  "\nBrowse and search a saved 'ls -lR' listing with pwd/cd/ls and find-style\n".toList ++
  "dfs/bfs queries.\n".toList ++
  "\npositional arguments:\n".toList ++
  "  listing               file containing ls -lR output\n".toList ++
  "\noptions:\n".toList ++
  "  -h, --help            show this help message and exit\n".toList ++
  "  --encoding ENCODING   encoding of the listing file (default: utf-8)\n".toList ++
  "  --lenient             skip blocks for directories that were never listed\n".toList ++
  "                        instead of failing\n".toList ++
  "  -c COMMAND, --command COMMAND\n".toList ++
  "                        run COMMAND instead of reading commands from stdin\n".toList ++
  "                        (repeatable)\n".toList ++
  "  -v, --verbose         log progress to stderr (-v info, -vv debug)\n".toList ++
  "  --version             show program's version number and exit\n".toList

/-- The line that tells of a misuse. -/
def misuseLine (m : Misuse) : Text :=
  name ++ ": error: ".toList ++ m.message

/-! ## Options -/

/-- How much is logged: warnings, then also information, then everything. -/
def logLevel : Nat → Log.Level
  | 0 => .warning
  | 1 => .info
  | _ => .debug

/-- The lines of the records that are logged. -/
def logText (verbosity : Nat) (records : List Log.Record) : Text :=
  (Log.atLeast (logLevel verbosity) records).flatMap fun r => Shell.asLine r.line

/-- How the listing is read. -/
def listingOptions (a : Arguments) : Listing.Options := ⟨a.encoding, !a.lenient⟩

/-- How the shell is set up: with commands among the arguments it never prompts. -/
def shellOptions (a : Arguments) : Shell.Options :=
  { Shell.Options.default with
    interactive := if a.commands.isEmpty then none else some false
    listing := listingOptions a }

/-- The script made of the commands among the arguments, a line each. -/
def script (a : Arguments) : Text :=
  a.commands.flatMap Shell.asLine

/-! ## Running -/

/-- What a whole run comes to: the exit status, the output and the diagnostics. -/
structure Outcome where
  status : Nat
  output : Text
  diagnostics : Text
  deriving DecidableEq, Repr

/-- Why a run comes to nothing: the arguments are misused, or a value among them is not there. -/
inductive Refusal where
  | misuse (m : Misuse)
  | valueless (v : Valueless)
  deriving DecidableEq, Repr

/-- What the program does once it knows its arguments and its listing: it refuses, it has said all
that was asked for, or it holds a session. -/
inductive Start where
  | refused (r : Refusal)
  | done (o : Outcome)
  | session (a : Arguments) (shell : Shell) (diagnostics : Text)

/-- The program up to its session, given how files are read. -/
def start (arguments : List Text) (read : Text → Except Listing.FileError (List UInt8)) : Start :=
  match Arguments.read arguments with
  | .error (.misuse m) => .refused (.misuse m)
  | .error (.valueless v) => .refused (.valueless v)
  | .error .help => .done ⟨0, helpText, []⟩
  | .error .version => .done ⟨0, versionText, []⟩
  | .ok a =>
    let loaded := Listing.load (listingOptions a) (.file a.listing (read a.listing))
    let diagnostics := logText a.verbosity loaded.log
    match loaded.result with
    | .error f =>
      let line := name ++ ": ".toList ++ a.listing ++ ": ".toList ++ f.message
      .done ⟨1, [], diagnostics ++ Shell.asLine line⟩
    | .ok t => .session a (.atRoot t) diagnostics

/-- The session of a program whose input is the given text and no terminal. -/
def finish (a : Arguments) (shell : Shell) (diagnostics input : Text) : Outcome :=
  let input : Session.Input :=
    if a.commands.isEmpty then ⟨input.lines, true, false, true⟩
    else ⟨(script a).lines, false, false, true⟩
  let o := Session.run shell (shellOptions a) input
  ⟨0, o.output, diagnostics ++ logText a.verbosity o.log⟩

/-- A whole run, given how files are read and the text on the input. -/
def run (arguments : List Text) (read : Text → Except Listing.FileError (List UInt8))
    (input : Text) : Except Refusal Outcome :=
  match start arguments read with
  | .refused r => .error r
  | .done o => .ok o
  | .session a shell diagnostics => .ok (finish a shell diagnostics input)

end Program

end DirectoryListing.CommandLine
