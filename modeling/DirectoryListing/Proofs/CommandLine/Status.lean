import DirectoryListing.CommandLine.Folder
import DirectoryListing.CommandLine.Program
import DirectoryListing.Proofs.CommandLine.Written
import DirectoryListing.Proofs.Listing.Files
import DirectoryListing.Proofs.Session.Containment
import DirectoryListing.Proofs.Session.Failures

/-!
# The exit status

The status of a run tells whether its listing could be loaded, and nothing else. Every fault of
loading is one that the program tells of, and every fault of a command is one that the session tells
of, so that no fault is passed on. Commands among the arguments are obeyed as they would be on the
input.

All this takes arguments with their values. A value of two hyphens is lost, and the program then
comes to nothing, though the arguments are not misused.

## Main definitions

* `Program.attempt`: the program, with each fault passed on that its code does not catch
* `Program.CannotLoad a read`: there is no tree, and why
* `Program.obeyed a input`: the text whose lines are obeyed

## Main results

* `Program.attempt_eq`: no fault is passed on
* `Program.run_status`: the status of a run, and what it prints
* `Program.run_written_eq_error_iff`: which runs have no status
* `Program.not_forall_run_status`: arguments without a status
-/

namespace DirectoryListing.CommandLine.Program

open Listing (FileError fileLines)

variable {arguments : List Text} {a : Arguments} {read : Text → Except FileError (List UInt8)}
  {input : Text}

/-! ## Faults that would be passed on -/

/-- The program tells of the fault that loading ends in: one of this library's own kinds, of a file
or of a value. Any other fault is passed on. -/
def isTold (f : Fault) : Bool :=
  f.kind?.isSome || match f with
    | .file _ | .badValue _ => true
    | _ => false

/-- The listing that the arguments name, as it is loaded. -/
def loaded (a : Arguments) (read : Text → Except FileError (List UInt8)) : Listing.Loaded :=
  Listing.load (listingOptions a) (.file a.listing (read a.listing))

/-- A run whose listing cannot be loaded. -/
def failed (a : Arguments) (read : Text → Except FileError (List UInt8)) (f : Fault) : Outcome :=
  let line := name ++ ": ".toList ++ a.listing ++ ": ".toList ++ f.message
  ⟨1, [], logText a.verbosity (loaded a read).log ++ Shell.asLine line⟩

/-- A run that has come to its session. -/
def completed (a : Arguments) (read : Text → Except FileError (List UInt8)) (o : Session.Outcome) :
    Outcome :=
  ⟨0, o.output, logText a.verbosity (loaded a read).log ++ logText a.verbosity o.log⟩

/-- The text whose lines are obeyed: a line for each command among the arguments, or the input if
there is none. -/
def obeyed (a : Arguments) (input : Text) : Text :=
  if a.commands.isEmpty then input else script a

/-- The input of the session. -/
def sessionInput (a : Arguments) (input : Text) : Session.Input :=
  ⟨(obeyed a input).lines, a.commands.isEmpty, false, true⟩

/-- The program once its arguments are known, with each fault passed on that its code does not
catch. -/
def attempt (a : Arguments) (read : Text → Except FileError (List UInt8)) (input : Text) :
    Except Fault Outcome :=
  match (loaded a read).result with
  | .error f => if isTold f then .ok (failed a read f) else .error f
  | .ok t =>
    (Session.attemptRun (.atRoot t) (shellOptions a) (sessionInput a input)).map (completed a read)

theorem isTold_of_loaded {f : Fault} (h : (loaded a read).result = .error f) : isTold f = true := by
  rcases Listing.fault_of_load_file h with hkind | ⟨message, rfl⟩ | ⟨message, rfl⟩
  · simp [isTold, hkind]
  · rfl
  · rfl

/-! ## The two ways of a run -/

/-- A run whose listing cannot be loaded holds no session. -/
theorem start_of_error {f : Fault} (h : Arguments.read arguments = .ok a)
    (hf : (loaded a read).result = .error f) :
    start arguments read = .done (failed a read f) := by
  rw [loaded] at hf
  rw [start, h]
  simp only [hf]
  rfl

/-- A run whose listing is loaded holds a session over its tree. -/
theorem start_of_ok {t : Tree} (h : Arguments.read arguments = .ok a)
    (ht : (loaded a read).result = .ok t) : start arguments read =
      .session a (.atRoot t) (logText a.verbosity (loaded a read).log) := by
  rw [loaded] at ht
  rw [start, h]
  simp only [ht]
  rfl

theorem run_of_error {f : Fault} (h : Arguments.read arguments = .ok a)
    (hf : (loaded a read).result = .error f) (input : Text) :
    run arguments read input = .ok (failed a read f) := by
  rw [run, start_of_error h hf]

theorem run_of_ok {t : Tree} (h : Arguments.read arguments = .ok a)
    (ht : (loaded a read).result = .ok t) (input : Text) : run arguments read input =
      .ok (completed a read
        (Session.run (.atRoot t) (shellOptions a) (sessionInput a input))) := by
  rw [run, start_of_ok h ht]
  cases hc : a.commands.isEmpty <;> simp [finish, completed, sessionInput, obeyed, hc]

/-- **No fault is passed on.** -/
theorem attempt_eq (a : Arguments) (read : Text → Except FileError (List UInt8)) (input : Text) :
    attempt a read input = .ok (match (loaded a read).result with
      | .error f => failed a read f
      | .ok t => completed a read
          (Session.run (.atRoot t) (shellOptions a) (sessionInput a input))) := by
  cases hr : (loaded a read).result with
  | error f => simp only [attempt, hr, isTold_of_loaded hr, if_true]
  | ok t =>
    simp only [attempt, hr, Session.attemptRun_eq]
    rfl

/-! ## The status -/

/-- The listing cannot be loaded: its encoding is unknown, or its file cannot be read, or what the
file holds has a wrong line or no block. -/
def CannotLoad (a : Arguments) (read : Text → Except FileError (List UInt8)) : Prop :=
  Encoding.ofName? a.encoding = none ∨ (∃ e, read a.listing = .error e) ∨
    ∃ e bytes err, Encoding.ofName? a.encoding = some e ∧ read a.listing = .ok bytes ∧
      (Listing.parse (!a.lenient) (fileLines e bytes)).result = .error err

theorem cannotLoad_iff : CannotLoad a read ↔ ∃ f, (loaded a read).result = .error f :=
  (@Listing.load_file_eq_error_iff (listingOptions a) a.listing (read a.listing)).symm

/-- The program never prompts when its input is no terminal. -/
theorem prompts_shellOptions (a : Arguments) : (shellOptions a).prompts false = false := by
  rw [Shell.Options.prompts, shellOptions]
  cases a.commands.isEmpty <;> rfl

/-- **The status of a run** is one if the listing cannot be loaded, and then nothing is printed and
there is no session. Otherwise it is zero, whatever the commands come to, and what is printed is what
a session without prompts prints over the commands, or over the input if there is none among the
arguments. The same is printed if the arguments have no commands and the input has them. -/
theorem run_status (h : Arguments.read arguments = .ok a)
    (read : Text → Except FileError (List UInt8)) (input : Text) :
    ∃ o, attempt a read input = .ok o ∧ run arguments read input = .ok o ∧
      (o.status = 1 ↔ CannotLoad a read) ∧
      (CannotLoad a read → o.output = [] ∧ start arguments read = .done o) ∧
      (¬ CannotLoad a read → o.status = 0 ∧ ∃ t, (loaded a read).result = .ok t ∧
        o.output = (Session.run (.atRoot t) { shellOptions a with interactive := some false }
          ⟨(obeyed a input).lines, false, false, true⟩).output ∧
        ∃ o', run (Arguments.written { a with commands := [] }) read (obeyed a input) = .ok o' ∧
          o'.status = 0 ∧ o'.output = o.output) := by
  have told := attempt_eq a read input
  cases hr : (loaded a read).result with
  | error f =>
    have cannot : CannotLoad a read := cannotLoad_iff.mpr ⟨f, hr⟩
    rw [hr] at told
    exact ⟨_, told, run_of_error h hr input, iff_of_true rfl cannot,
      fun _ => ⟨rfl, start_of_error h hr⟩, fun hcan => absurd cannot hcan⟩
  | ok t =>
    have can : ¬ CannotLoad a read := fun hcannot => by
      obtain ⟨f, hf⟩ := cannotLoad_iff.mp hcannot
      rw [hr] at hf
      cases hf
    rw [hr] at told
    have hwritten : Arguments.read (Arguments.written { a with commands := [] }) =
        .ok { a with commands := [] } := by
      rw [Arguments.read_written, if_neg List.not_mem_nil, if_neg (Arguments.values_of_read h).2]
    refine ⟨_, told, run_of_ok h hr input, iff_of_false (by simp [completed]) can,
      fun hcannot => absurd hcannot can, fun _ => ⟨rfl, t, rfl, ?_, _,
        run_of_ok hwritten hr _, rfl, ?_⟩⟩
    -- no session prompts, and all read the same lines
    · refine congrArg (·.output) (Session.run_congr_of_not_prompts ?_ ?_ ?_)
      · exact prompts_shellOptions a
      · rfl
      · rfl
    · refine congrArg (·.output) (Session.run_congr_of_not_prompts ?_ ?_ ?_)
      · exact prompts_shellOptions _
      · exact prompts_shellOptions a
      · rfl

/-- **Arguments in the one form** have no status if a value is two hyphens, and only then. -/
theorem run_written_eq_error_iff (a : Arguments) (read : Text → Except FileError (List UInt8))
    (input : Text) : (∃ r, run a.written read input = .error r) ↔
      ['-', '-'] ∈ a.commands ∨ a.encoding = ['-', '-'] := by
  have hread := Arguments.read_written a
  by_cases hlost : ['-', '-'] ∈ a.commands ∨ a.encoding = ['-', '-']
  · refine iff_of_true ?_ hlost
    obtain ⟨v, hv⟩ : ∃ v, Arguments.read a.written = .error (.valueless v) := by
      rcases hlost with hcommands | hencoding
      · exact ⟨_, hread.trans (if_pos hcommands)⟩
      · by_cases hcommands : ['-', '-'] ∈ a.commands
        · exact ⟨_, hread.trans (if_pos hcommands)⟩
        · exact ⟨_, hread.trans ((if_neg hcommands).trans (if_pos hencoding))⟩
    exact ⟨.valueless v, by rw [run, start, hv]⟩
  · obtain ⟨hcommands, hencoding⟩ := not_or.mp hlost
    rw [if_neg hcommands, if_neg hencoding] at hread
    refine iff_of_false ?_ hlost
    rintro ⟨r, hr⟩
    cases hl : (loaded a read).result with
    | error f => cases hr.symm.trans (run_of_error hread hl input)
    | ok t => cases hr.symm.trans (run_of_ok hread hl input)

/-! ## Runs -/

/-- A listing of nothing, in bytes. -/
def emptyBytes : List UInt8 :=
  ".:\ntotal 0\n".toList.map fun c => UInt8.ofNat c.toNat

/-- A file with this listing, and no other. -/
def folder : Folder := ⟨[(['l'], emptyBytes)]⟩

/-- What the arguments `FILE -c x -cpwd` ask for. -/
def twoCommands (listing : Text) : Arguments :=
  ⟨listing, "utf-8".toList, false, [['x'], "pwd".toList], 0⟩

theorem loaded_twoCommands :
    (loaded (twoCommands ['l']) folder.read).result = .ok Listing.emptyTree := by
  have parsed : (Listing.parse true (fileLines .utf8 emptyBytes)).result = .ok Listing.emptyTree :=
    Listing.eq_ok_of_toOption (by decide +kernel)
  exact congrArg (Except.mapError Listing.Error.fault) parsed

/-- A command that does not exist leaves no trace in the status. A listing that does not exist
does. -/
theorem run_status_twoCommands :
    let arguments (listing : Text) : List Text := [listing, "-c".toList, ['x'], "-cpwd".toList]
    Arguments.read (arguments ['l']) = .ok (twoCommands ['l']) ∧
      Arguments.read (arguments ['m']) = .ok (twoCommands ['m']) ∧
      (∃ o, run (arguments ['l']) folder.read [] = .ok o ∧ o.status = 0 ∧
        o.output = "no such command - x\n/\n".toList) ∧
      ∃ o, run (arguments ['m']) folder.read [] = .ok o ∧ o.status = 1 ∧ o.output = [] := by
  intro arguments
  have hread : Arguments.read (arguments ['l']) = .ok (twoCommands ['l']) := rfl
  have hmissing : Arguments.read (arguments ['m']) = .ok (twoCommands ['m']) := rfl
  refine ⟨hread, hmissing, ?_, ?_⟩
  · obtain ⟨o, -, hrun, -, -, hcan⟩ := run_status hread folder.read []
    have can : ¬ CannotLoad (twoCommands ['l']) folder.read := fun hcannot => by
      obtain ⟨f, hf⟩ := cannotLoad_iff.mp hcannot
      cases loaded_twoCommands.symm.trans hf
    obtain ⟨hstatus, t, ht, houtput, -⟩ := hcan can
    cases ht.symm.trans loaded_twoCommands
    exact ⟨o, hrun, hstatus, houtput.trans (by decide)⟩
  · obtain ⟨o, -, hrun, hstatus, hcannot, -⟩ := run_status hmissing folder.read []
    have missing : CannotLoad (twoCommands ['m']) folder.read := .inr (.inl ⟨.missing, rfl⟩)
    exact ⟨o, hrun, hstatus.mpr missing, (hcannot missing).1⟩

/-- The arguments of a run may be no misuse, and ask for a session, and yet the run has no
status. -/
theorem not_forall_run_status :
    ¬ ∀ (arguments : List Text) (read : Text → Except FileError (List UInt8)) (input : Text),
      (∀ m, Arguments.read arguments ≠ .error (.misuse m)) →
        Arguments.read arguments ≠ .error .help → Arguments.read arguments ≠ .error .version →
          ∃ o, run arguments read input = .ok o ∧ (o.status = 0 ∨ o.status = 1) := by
  intro h
  have lost : Arguments.read [['l'], "--command=--".toList] = .error (.valueless .command) := rfl
  obtain ⟨o, ho, -⟩ := h [['l'], "--command=--".toList] folder.read []
    (fun m hm => nomatch lost.symm.trans hm) (fun hhelp => nomatch lost.symm.trans hhelp)
    (fun hversion => nomatch lost.symm.trans hversion)
  rw [run, start, lost] at ho
  cases ho

end DirectoryListing.CommandLine.Program
