import DirectoryListing.Listing.Source
import DirectoryListing.Query
import DirectoryListing.Search
import DirectoryListing.Words

/-!
# The shell

A shell stands in a directory of a tree and obeys commands: to move, to say where it stands, to
list the directory and to search below it. A command answers with what it prints and with the shell
after it.

## Main definitions

* `Shell.Options`: how a shell is set up
* `Shell`: the tree, and the directory that the shell stands in
* `Shell.Command`: the commands and their names
* `Shell.Failure`: why a command is not obeyed
* `Shell.execute`, `Shell.executeLine`: obeying words, and a line
-/

namespace DirectoryListing

/-! ## Options -/

/-- How a shell is set up: its prompt, whether it prompts (if that is said), and how its listing is
read. -/
structure Shell.Options where
  prompt : Text
  interactive : Option Bool
  listing : Listing.Options
  deriving DecidableEq, Repr

namespace Shell.Options

/-- The usual prompt, shown where commands come from a terminal. -/
def default : Options := ⟨"ls-lR> ".toList, none, .default⟩

/-- What is wrong with the options. -/
def problems (o : Options) : List Text :=
  (if o.prompt.contains '\n' then ["prompt must be a single line".toList] else []) ++
    o.listing.problems

/-- Whether the shell prompts, given whether its commands come from a terminal. -/
def prompts (o : Options) (terminal : Bool) : Bool :=
  o.interactive.getD terminal

end Shell.Options

/-! ## Shells -/

/-- A shell: the root of the tree, the directory that it stands in, and whether it takes further
commands. -/
structure Shell where
  root : Node
  directory : Node
  running : Bool

namespace Shell

/-- A shell at the root of a tree. -/
def atRoot (t : Tree) : Shell := ⟨.ofTree t, .ofTree t, true⟩

/-- The commands. -/
inductive Command where
  | quit
  | printDirectory
  | changeDirectory
  | list
  | search (order : Strategy)
  deriving DecidableEq, Repr

/-- The commands by name, in the order of the names. -/
def Command.table : List (Text × Command) := [
  ("bfs".toList, search .breadthFirst), ("cd".toList, changeDirectory),
  ("dfs".toList, search .depthFirst), ("exit".toList, quit), ("ls".toList, list),
  ("pwd".toList, printDirectory), ("quit".toList, quit)]

/-- The command of a name. -/
def Command.named? (name : Text) : Option Command :=
  table.lookup name

/-- The names of all commands. -/
def commandNames : List Text :=
  Command.table.map (·.1)

/-! ## Failures -/

/-- Why a command is not obeyed. -/
inductive Failure where
  /-- The line cannot be cut into words. -/
  | words (e : Words.Error)
  /-- There is no word at all. -/
  | noCommand
  /-- The first word names no command. -/
  | unknownCommand (name : Text)
  /-- The shell should stand in a file. -/
  | notDirectory (path : Text)
  /-- A path leads nowhere. -/
  | step (e : Node.StepError)
  /-- A query spells no expression. -/
  | query (e : Query.Error)
  /-- A search ends early. -/
  | search (e : Search.Error)

/-- The fault of a command that is not obeyed. -/
def Failure.fault : Failure → Fault
  | words e => .command ("invalid command line - ".toList ++ e.message)
  | noCommand => .badIndex "list index out of range".toList
  | unknownCommand name => .command ("no such command - ".toList ++ name)
  | notDirectory path => .command ("not a directory - ".toList ++ path)
  | step e => e.fault
  | query e => e.fault
  | search e => e.fault

/-- The text of a failure. -/
def Failure.message (e : Failure) : Text := e.fault.message

/-! ## Obeying -/

/-- The answer to a command: the shell after it, what it prints, why it has failed, if it has, and
its records. -/
structure Reply where
  shell : Shell
  output : Text
  failure : Option Failure
  log : List Log.Record

/-- An answer with output and nothing else. -/
def say (s : Shell) (output : Text) : Reply := ⟨s, output, none, []⟩

/-- An answer that is a failure and changes nothing. -/
def fail (s : Shell) (e : Failure) : Reply := ⟨s, [], some e, []⟩

/-- A text as a line of output. -/
def asLine (t : Text) : Text := t ++ ['\n']

/-- The node that a path leads to, seen from the shell's directory. -/
def resolve (s : Shell) (path : Text) : Except Node.StepError Node :=
  s.root.resolve path (some s.directory)

/-- Moves to the directory that a path leads to. -/
def moveTo (s : Shell) (path : Text) : Reply :=
  match s.resolve path with
  | .error e => s.fail (.step e)
  | .ok n =>
    if n.isDirectory then { s with directory := n }.say []
    else s.fail (.notDirectory path)

/-- Prints the paths of the nodes below the directory that a query asks for. -/
def runSearch (s : Shell) (order : Strategy) (tokens : List Text) : Reply :=
  match Query.parse tokens with
  | .error e => s.fail (.query e)
  | .ok e =>
    let outcome := (Search.new e (.empty order)).paths s.directory
    ⟨s, Search.printed outcome.found, outcome.failure.map .search,
      Query.record tokens e :: outcome.log⟩

/-- Obeys a command with the given arguments. Arguments that a command has no use for are not
looked at. -/
def obey (s : Shell) : Command → List Text → Reply
  | .quit, _ => { s with running := false }.say []
  | .printDirectory, _ => s.say (asLine s.directory.path)
  | .changeDirectory, [] => s.say []
  | .changeDirectory, path :: _ => s.moveTo path
  | .list, _ => s.say (s.directory.children.flatMap fun n => asLine n.entry.line)
  | .search order, tokens => s.runSearch order tokens

/-- The record of a command about to be obeyed. -/
def dispatchRecord (name : Text) (arguments : List Text) : Log.Record :=
  ⟨.debug, .shell, "Dispatching ".toList ++ name ++ ' ' ::
    Text.bracketed (arguments.map Text.quoted)⟩

/-- Obeys the command that the first word names; the other words are its arguments. -/
def execute (s : Shell) : List Text → Reply
  | [] => s.fail .noCommand
  | name :: arguments =>
    match Command.named? name with
    | none => s.fail (.unknownCommand name)
    | some command =>
      let reply := s.obey command arguments
      { reply with log := dispatchRecord name arguments :: reply.log }

/-- Obeys a line; one without words asks for nothing. -/
def executeLine (s : Shell) (line : Text) : Reply :=
  match Words.split line with
  | .error e => s.fail (.words e)
  | .ok [] => s.say []
  | .ok words => s.execute words

end Shell

end DirectoryListing
