import DirectoryListing.Shell
import DirectoryListing.Text.Blank

/-!
# Sessions

In a session a shell reads lines and obeys them until one of them asks it to stop or none is left.
A failure is told in a line of its own, and the session goes on.

## Main definitions

* `Session.Reader`: how a session comes by its lines
* `Session.turn s line`: what one line comes to
* `Session.run`: a session over the lines of a script
-/

namespace DirectoryListing.Session

/-- How a session comes by its lines. A stream hands over each line with its line feed; a terminal
hands it over without. -/
inductive Reader where
  | stream
  | terminal
  deriving DecidableEq, Repr

/-- A line as the reader hands it over. -/
def Reader.hand : Reader → Text → Text
  | stream, line => line
  | terminal, line => if line.getLast? = some '\n' then line.dropLast else line

/-- The record of a failure. -/
def failureRecord (line : Text) (e : Shell.Failure) : Log.Record :=
  ⟨.debug, .shell, "Command ".toList ++ line.trimmed.quoted ++ " failed: ".toList ++ e.message⟩

/-- What one line comes to: the shell after it, all that is printed for it, and its records. -/
structure Turn where
  shell : Shell
  output : Text
  log : List Log.Record

/-- Obeys a line. A failure is told in a line of output. -/
def turn (s : Shell) (line : Text) : Turn :=
  let reply := s.executeLine line
  match reply.failure with
  | none => ⟨reply.shell, reply.output, reply.log⟩
  | some e =>
    ⟨reply.shell, reply.output ++ Shell.asLine e.message, reply.log ++ [failureRecord line e]⟩

/-- What a session comes to: all that it prints, the shell at its end, the lines that it has not
read, and its records. -/
structure Outcome where
  output : Text
  shell : Shell
  unread : List Text
  log : List Log.Record

/-- The outcome with output and records that came before it. -/
def Outcome.after (output : Text) (log : List Log.Record) (o : Outcome) : Outcome :=
  { o with output := output ++ o.output, log := log ++ o.log }

/-- Obeys the lines of a script, printing the prompt before each is read, and before the end of the
script is met. -/
def obeyAll (reader : Reader) (prompt : Text) (s : Shell) : List Text → Outcome
  | [] => ⟨prompt, s, [], []⟩
  | line :: rest =>
    let t := turn s (reader.hand line)
    -- the lines after the one that stops the session are left unread
    if t.shell.running then (obeyAll reader prompt t.shell rest).after (prompt ++ t.output) t.log
    else ⟨prompt ++ t.output, t.shell, rest, t.log⟩

/-- The record of a terminal without line editing. -/
def noEditingRecord : Log.Record :=
  ⟨.debug, .shell, "readline unavailable, reading lines without editing".toList⟩

/-- Where a session's commands come from: the lines of a script, whether they are the input of the
process, whether that input is a terminal, and whether a terminal has line editing. -/
structure Input where
  script : List Text
  ofProcess : Bool
  isTerminal : Bool
  hasEditing : Bool

/-- The way in which a session with the given options reads its input: as from a terminal if it
prompts for the input of the process. -/
def Input.reader (input : Input) (options : Shell.Options) : Reader :=
  if input.ofProcess && options.prompts input.isTerminal then .terminal else .stream

/-- A session over the given input. -/
def run (s : Shell) (options : Shell.Options) (input : Input) : Outcome :=
  let reader := input.reader options
  let prompt : Text := if options.prompts input.isTerminal then options.prompt else []
  let log := if reader = .terminal && !input.hasEditing then [noEditingRecord] else []
  (obeyAll reader prompt { s with running := true } input.script).after [] log

end DirectoryListing.Session
