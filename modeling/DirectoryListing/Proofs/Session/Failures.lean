import DirectoryListing.Proofs.Listing.Entries
import DirectoryListing.Proofs.Session.Steps

/-!
# Failures in a session

A session without a prompt tells each failure by its text and a line feed, and prints nothing else
for the line that fails. The text is meant to be one line. It is, with one exception: a line feed
behind a backslash at the end of a line becomes a part of the last word, and of the text that quotes
this word.

## Main results

* `Session.run_failure`: what is printed for a line that fails
* `Session.not_forall_failure_line`: the text of a failure need not be one line
-/

namespace DirectoryListing.Session

open Listing (emptyListing emptyTree parse_emptyListing)
open Words (escapedLine)

variable {strict : Bool} {lines : List Text} {t : Tree} {s : Shell} {options : Shell.Options}

/-- A session without a prompt reads its lines as from a stream. -/
theorem run_of_not_prompts {input : Input} (hq : options.prompts input.isTerminal = false) :
    run s options input = obeyAll .stream [] { s with running := true } input.script := by
  have hreader : input.reader options = .stream := by simp [Input.reader, hq]
  rw [run, hreader, hq]
  rfl

/-- Two sessions without a prompt come to the same over the same lines. -/
theorem run_congr_of_not_prompts {options' : Shell.Options} {input input' : Input}
    (hq : options.prompts input.isTerminal = false)
    (hq' : options'.prompts input'.isTerminal = false) (h : input.script = input'.script) :
    run s options input = run s options' input' := by
  rw [run_of_not_prompts hq, run_of_not_prompts hq', h]

/-- What a session without a prompt prints is what its lines come to. -/
theorem output_run_of_not_prompts {input : Input} (hq : options.prompts input.isTerminal = false) :
    (run s options input).output =
      (steps .stream { s with running := true } input.script).flatMap fun p =>
        (turn p.1 p.2).output := by
  rw [run_of_not_prompts hq]
  exact output_obeyAll_nil

/-- **Each failure is told by its text and a line feed.** All that a session without a prompt prints
is what its lines come to, and for a line that fails this is the text of the failure and a line
feed. The text is one line unless the line ends in a line feed behind a backslash, and the failure
quotes the word that the line feed has ended up in. -/
theorem run_failure (h : (Listing.parse strict lines).result = .ok t) (hs : s.StandsIn t)
    (script : Text) (ofProcess isTerminal hasEditing : Bool)
    (hq : options.prompts isTerminal = false) :
    let steps := steps .stream { s with running := true } script.lines
    (run s options ⟨script.lines, ofProcess, isTerminal, hasEditing⟩).output =
        (steps.flatMap fun p => (turn p.1 p.2).output) ∧
      ∀ p ∈ steps, ∀ e, (p.1.executeLine p.2).failure = some e →
        e.fault.kind?.isSome = true ∧ (turn p.1 p.2).output = e.message ++ ['\n'] ∧
          ('\n' ∈ e.message ↔ p.1.BlamesLineFeed p.2) := by
  intro steps
  refine ⟨output_run_of_not_prompts hq, fun p hp e he => ?_⟩
  have hin : Shell.StandsIn t { s with running := true } := ⟨hs.root, hs.directory⟩
  have hline : p.2.IsLine := Text.isLine_of_mem_lines (line_mem_script p hp)
  exact ⟨Shell.isSome_kind?_of_failure he, turn_of_failure he,
    (standsIn_of_mem_steps hin p hp).mem_message_iff (Listing.not_mem_name h) hline he⟩

/-! ## A command name with a line feed -/

theorem failure_escapedLine : ((Shell.atRoot emptyTree).executeLine escapedLine).failure =
    some (.unknownCommand ['x', '\n']) := rfl

/-- The session prints two lines for one failure: the name of the command ends in a line feed. -/
theorem run_failure_escapedLine :
    (Listing.parse true emptyListing).result = .ok emptyTree ∧
    (Shell.atRoot emptyTree).StandsIn emptyTree ∧
    Shell.Options.default.prompts false = false ∧
    (run (.atRoot emptyTree) .default ⟨escapedLine.lines, true, false, true⟩).output =
      "no such command - x\n\n".toList ∧
    (Shell.atRoot emptyTree).BlamesLineFeed escapedLine := by
  have hs := Shell.standsIn_atRoot emptyTree
  have hq : Shell.Options.default.prompts false = false := rfl
  obtain ⟨output, failed⟩ := run_failure parse_emptyListing hs escapedLine true false true hq
  obtain ⟨-, -, hblamed⟩ := failed (.atRoot emptyTree, escapedLine) List.mem_cons_self _
    failure_escapedLine
  exact ⟨parse_emptyListing, hs, hq, output, hblamed.mp (by decide)⟩

/-- The text of a failure need not be one line. -/
theorem not_forall_failure_line :
    ¬ ∀ (lines : List Text) (t : Tree) (script : Text), (Listing.parse true lines).result = .ok t →
      ∀ p ∈ steps .stream (.atRoot t) script.lines, ∀ e,
        (p.1.executeLine p.2).failure = some e →
          '\n' ∉ e.message ∧ (turn p.1 p.2).output = e.message ++ ['\n'] := by
  intro h
  obtain ⟨hline, -⟩ := h emptyListing emptyTree escapedLine parse_emptyListing
    (.atRoot emptyTree, escapedLine) List.mem_cons_self _ failure_escapedLine
  exact hline (by decide)

end DirectoryListing.Session
