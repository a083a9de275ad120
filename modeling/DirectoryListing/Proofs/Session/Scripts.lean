import DirectoryListing.Proofs.Session.Readers
import DirectoryListing.Proofs.Shell.Lines

/-!
# Sessions as folds

A session reads the lines of a script up to the first that asks it to stop. Each is obeyed by the
shell that the one before has left, and what is printed is what the lines come to, one after the
other. A prompt has no part in this: it is printed before each line, and once more where the script
ends and no line has asked to stop.

## Main definitions

* `Session.linesRead script`: the lines of a script that are read

## Main results

* `Session.obeyAll_eq_fold`, `Session.run_eq_fold`: a session is the fold of its commands
* `Session.run_prompting`: a session with a prompt, and one without
-/

namespace DirectoryListing.Session

open Listing (emptyTree)

variable {reader : Reader} {s : Shell} {line prompt : Text}

/-! ## Lines that are read -/

/-- The lines of a script, up to the first that asks to stop. -/
def linesRead : List Text → List Text
  | [] => []
  | line :: rest => line :: if Shell.asksToStop line then [] else linesRead rest

theorem linesRead_cons_of_stops (h : Shell.asksToStop line = true) (rest : List Text) :
    linesRead (line :: rest) = [line] := by
  rw [linesRead, if_pos h]

theorem linesRead_cons_of_not_stops (h : Shell.asksToStop line = false) (rest : List Text) :
    linesRead (line :: rest) = line :: linesRead rest := by
  rw [linesRead, if_neg (Bool.eq_false_iff.mp h)]

/-- The lines that are read are the first ones. -/
theorem isPrefix_linesRead (script : List Text) : linesRead script <+: script := by
  induction script with
  | nil => exact List.prefix_refl []
  | cons line rest ih =>
    rw [linesRead]
    split
    · exact (List.prefix_cons_inj line).mpr List.nil_prefix
    · exact (List.prefix_cons_inj line).mpr ih

/-! ## Runs -/

/-- What is printed for a line. -/
theorem output_turn (s : Shell) (line : Text) : (turn s line).output = s.told line := by
  cases hf : (s.executeLine line).failure with
  | none => rw [turn_of_success hf, Shell.told, hf]
  | some e => rw [turn_of_failure hf, Shell.told, hf]

/-- **A session is the fold of its commands.** -/
theorem obeyAll_eq_fold (hs : s.running = true) (script : List Text) :
    let lines := linesRead (script.map reader.hand)
    let outcome := obeyAll reader prompt s script
    outcome.output = (s.outputs lines).flatMap (prompt ++ ·) ++
        (if lines.any Shell.asksToStop then [] else prompt) ∧
      outcome.shell = s.afterLines lines ∧
      outcome.unread = script.drop lines.length := by
  induction script generalizing s with
  | nil => simp [obeyAll, linesRead, Shell.outputs, Shell.afterLines]
  | cons line rest ih =>
    have hrun : (turn s (reader.hand line)).shell.running =
        !Shell.asksToStop (reader.hand line) := by
      rw [shell_turn, (Shell.effect_executeLine s _).running_eq, hs, Bool.true_and]
    cases hstops : Shell.asksToStop (reader.hand line) with
    | true =>
      rw [hstops] at hrun
      rw [obeyAll_cons_of_not_running hrun, List.map_cons, linesRead_cons_of_stops hstops]
      simp [Shell.outputs, Shell.afterLines, output_turn, shell_turn, hstops]
    | false =>
      rw [hstops] at hrun
      obtain ⟨output, shell, unread⟩ := ih hrun
      rw [obeyAll_cons_of_running hrun, List.map_cons, linesRead_cons_of_not_stops hstops]
      rw [shell_turn] at output shell unread
      simp only [Outcome.after, output_turn, shell_turn, output, shell, unread]
      simp [Shell.outputs, Shell.afterLines_cons, hstops]

/-! ## Whole sessions -/

/-- What a session prints before it reads a line. -/
def Input.promptFor (input : Input) (options : Shell.Options) : Text :=
  if options.prompts input.isTerminal then options.prompt else []

/-- What a session over some input comes to. -/
theorem run_eq_fold (s : Shell) (options : Shell.Options) (input : Input) :
    let start : Shell := { s with running := true }
    let lines := linesRead (input.script.map (input.reader options).hand)
    let outcome := run s options input
    outcome.output = (start.outputs lines).flatMap (input.promptFor options ++ ·) ++
        (if lines.any Shell.asksToStop then [] else input.promptFor options) ∧
      outcome.shell = start.afterLines lines ∧
      outcome.unread = input.script.drop lines.length :=
  obeyAll_eq_fold (s := { s with running := true }) rfl input.script

/-- **Prompting is invisible to a session.** Without a prompt a session prints what the lines that
it reads come to, one after the other. With a prompt it prints the prompt before each, and once more
at the end if no line has asked to stop. Both leave the same shell and the same lines unread, which
are the rest of the script. -/
theorem run_prompting (s : Shell) (script : Text) {options options' : Shell.Options}
    {isTerminal isTerminal' : Bool} (hquiet : options.prompts isTerminal = false)
    (hprompts : options'.prompts isTerminal' = true) (ofProcess hasEditing hasEditing' : Bool) :
    let start : Shell := { s with running := true }
    let lines := linesRead script.lines
    let outputs := start.outputs lines
    let quiet := run s options ⟨script.lines, ofProcess, isTerminal, hasEditing⟩
    let prompting := run s options' ⟨script.lines, false, isTerminal', hasEditing'⟩
    quiet.output = outputs.flatten ∧
      prompting.output = outputs.flatMap (options'.prompt ++ ·) ++
        (if lines.any Shell.asksToStop then [] else options'.prompt) ∧
      quiet.shell = start.afterLines lines ∧ prompting.shell = start.afterLines lines ∧
      quiet.unread = script.lines.drop lines.length ∧
      prompting.unread = script.lines.drop lines.length ∧
      lines.flatten ++ quiet.unread.flatten = script := by
  intro start lines outputs quiet prompting
  have asRead : script.lines.map Reader.stream.hand = script.lines := List.map_id' _
  obtain ⟨output, shell, unread⟩ :=
    run_eq_fold s options ⟨script.lines, ofProcess, isTerminal, hasEditing⟩
  obtain ⟨output', shell', unread'⟩ :=
    run_eq_fold s options' ⟨script.lines, false, isTerminal', hasEditing'⟩
  -- neither reads as from a terminal
  simp only [Input.reader, Input.promptFor, hquiet, hprompts, Bool.and_false, Bool.false_and,
    Bool.false_eq_true, if_false, if_true, asRead] at output shell unread output' shell' unread'
  refine ⟨?_, output', shell, shell', unread, unread', ?_⟩
  · rw [output]
    simp [outputs, lines, start, List.flatMap_id']
  · rw [unread, ← List.flatten_append, List.prefix_iff_eq_append.mp (isPrefix_linesRead _),
      Text.flatten_lines]

/-- A session over a script that says where it stands and stops, and the same session with a
prompt. -/
theorem run_prompting_quitScript :
    let options : Shell.Options := ⟨"> ".toList, some true, .default⟩
    let quiet := run (.atRoot emptyTree) .default ⟨quitScript.lines, true, false, true⟩
    let prompting := run (.atRoot emptyTree) options ⟨quitScript.lines, false, false, true⟩
    Shell.Options.default.prompts false = false ∧ options.prompts false = true ∧
      quiet.output = "/\n".toList ∧ prompting.output = "> /\n> ".toList ∧
      quiet.unread = ["ls\n".toList] ∧ prompting.unread = ["ls\n".toList] := by
  intro options quiet prompting
  have hquiet : Shell.Options.default.prompts false = false := rfl
  have hprompts : options.prompts false = true := rfl
  obtain ⟨output, output', -, -, unread, unread', -⟩ :=
    run_prompting (.atRoot emptyTree) quitScript hquiet hprompts true true true
  exact ⟨hquiet, hprompts, output.trans (by decide), output'.trans (by decide),
    unread.trans (by decide), unread'.trans (by decide)⟩

end DirectoryListing.Session
