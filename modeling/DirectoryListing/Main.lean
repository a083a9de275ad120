import DirectoryListing.CommandLine.Program

/-!
# The command line

Reads the listing file and the commands on the input, and prints what the program says. All that it
says is settled in `DirectoryListing.CommandLine.Program` and `DirectoryListing.Session`.
-/

namespace DirectoryListing.CommandLine

/-- Prints a text. -/
def put (stream : IO.FS.Stream) (t : Text) : IO Unit := do
  stream.putStr (String.ofList t)
  stream.flush

/-- The bytes of a file. -/
def readListing (path : Text) : IO (Except Listing.FileError (List UInt8)) := do
  try
    let bytes ← IO.FS.readBinFile (String.ofList path)
    return .ok bytes.toList
  catch
    | .noFileOrDirectory .. => return .error .missing
    | .inappropriateType _ code _ =>
      return .error (if code = 20 then .notADirectory else .isADirectory)
    | .invalidArgument _ 36 _ => return .error .nameTooLong
    | e => throw e

/-- Obeys the lines of the input one by one. -/
partial def converse (reader : Session.Reader) (prompt : Text) (verbosity : Nat) (s : Shell) :
    IO Unit := do
  let stdout ← IO.getStdout
  put stdout prompt
  let line ← (← IO.getStdin).getLine
  if line.isEmpty then return
  let t := Session.turn s (reader.hand line.toList)
  put stdout t.output
  put (← IO.getStderr) (Program.logText verbosity t.log)
  if t.shell.running then converse reader prompt verbosity t.shell

end DirectoryListing.CommandLine

open DirectoryListing DirectoryListing.CommandLine in
/-- The program: its exit status is two for misuse, and one for a value that is not there or a
listing that cannot be loaded. -/
def main (argv : List String) : IO UInt32 := do
  let arguments := argv.map String.toList
  let contents ← match Arguments.read arguments with
    | .ok a => readListing a.listing
    | .error _ => pure (.error .missing)
  let stdout ← IO.getStdout
  let stderr ← IO.getStderr
  match Program.start arguments fun _ => contents with
  | .refused (.misuse m) =>
    put stderr (Program.usage ++ Shell.asLine (Program.misuseLine m))
    return 2
  | .refused (.valueless v) =>
    put stderr (Shell.asLine v.fault.message)
    return 1
  | .done o =>
    put stdout o.output
    put stderr o.diagnostics
    return UInt32.ofNat o.status
  | .session a shell diagnostics =>
    put stderr diagnostics
    if a.commands.isEmpty then
      let options := Program.shellOptions a
      let isTerminal ← (← IO.getStdin).isTty
      let input : Session.Input := ⟨[], true, isTerminal, true⟩
      let prompt : Text := if options.prompts isTerminal then options.prompt else []
      converse (input.reader options) prompt a.verbosity shell
    else
      let o := Program.finish a shell [] []
      put stdout o.output
      put stderr o.diagnostics
    return 0
