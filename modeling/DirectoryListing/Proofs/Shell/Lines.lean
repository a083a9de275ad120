import DirectoryListing.Proofs.Shell.Answers

/-!
# What a line does to a shell

Two commands change a shell: one asks it to stop, and one moves it to another directory. All other
lines leave the shell that was asked, whether they fail or not. Lines are obeyed one after the
other, each of them by the shell that the one before has left.

## Main definitions

* `Shell.stops words`, `Shell.asksToStop line`: a command to stop
* `Shell.Effect s line s' failure`: what a line leaves of a shell
* `Shell.told s line`: what is printed for a line
* `Shell.afterLines s lines`, `Shell.outputs s lines`: what some lines leave, and what is printed
  for each

## Main results

* `Shell.effect_executeLine`: all that a line can do to a shell
* `Shell.Effect.running_eq`, `Shell.Effect.directory_eq`: when a shell stops, and when it moves
* `Shell.running_afterLines`: when a shell takes further commands after some lines
-/

namespace DirectoryListing.Shell

variable {s s' : Shell} {name line output : Text} {words : List Text} {failure : Option Failure}

/-! ## Commands to stop and to move -/

/-- The words are a command to stop. -/
def stops : List Text → Bool
  | [] => false
  | name :: _ => name = "quit".toList || name = "exit".toList

theorem stops_iff {arguments : List Text} :
    stops (name :: arguments) = true ↔ Command.named? name = some .quit := by
  rw [Command.named?_eq_some]
  simp [stops, Command.table, or_comm]

theorem named?_eq_changeDirectory :
    Command.named? name = some .changeDirectory ↔ name = "cd".toList := by
  rw [Command.named?_eq_some]
  simp [Command.table]

/-- The line is a command to stop. -/
def asksToStop (line : Text) : Bool :=
  match Words.split line with
  | .ok words => stops words
  | .error _ => false

/-! ## One line -/

/-- The line is a command to move to a path, and the path leads to a directory. -/
def MovesTo (s : Shell) (line : Text) (n : Node) : Prop :=
  ∃ path rest, Words.split line = .ok ("cd".toList :: path :: rest) ∧ s.resolve path = .ok n ∧
    n.isDirectory = true

/-- What a line leaves of a shell, given whether it fails. -/
inductive Effect (s : Shell) (line : Text) : Shell → Option Failure → Prop
  | stop : asksToStop line = true → Effect s line { s with running := false } none
  | move {n : Node} : asksToStop line = false → s.MovesTo line n →
    Effect s line { s with directory := n } none
  | stay {failure : Option Failure} : asksToStop line = false → Effect s line s failure

theorem asksToStop_eq_false {found : Option Command} {arguments : List Text}
    (hw : Words.split line = .ok (name :: arguments)) (hname : Command.named? name = found)
    (hne : found ≠ some .quit) : asksToStop line = false := by
  rw [asksToStop, hw]
  exact Bool.eq_false_iff.mpr fun hstops => hne (hname ▸ stops_iff.mp hstops)

theorem Answers.effect (h : Answers s words s' output failure)
    (hw : Words.split line = .ok words) : s.Effect line s' failure := by
  cases h with
  | quit hname =>
    refine .stop ?_
    rw [asksToStop, hw]
    exact stops_iff.mpr hname
  | move hname hn hd =>
    obtain rfl := named?_eq_changeDirectory.mp hname
    exact .move (asksToStop_eq_false hw hname nofun) ⟨_, _, hw, hn, hd⟩
  | unknown hname => exact .stay (asksToStop_eq_false hw hname nofun)
  | place hname => exact .stay (asksToStop_eq_false hw hname nofun)
  | stay hname => exact .stay (asksToStop_eq_false hw hname nofun)
  | file hname _ _ => exact .stay (asksToStop_eq_false hw hname nofun)
  | nowhere hname _ => exact .stay (asksToStop_eq_false hw hname nofun)
  | children hname => exact .stay (asksToStop_eq_false hw hname nofun)
  | unread hname _ => exact .stay (asksToStop_eq_false hw hname nofun)
  | finds hname _ => exact .stay (asksToStop_eq_false hw hname nofun)

/-- **A line** asks a shell to stop, or moves it, or leaves it as it is. -/
theorem effect_executeLine (s : Shell) (line : Text) :
    s.Effect line (s.executeLine line).shell (s.executeLine line).failure := by
  rcases executeLine_cases s line with ⟨_, hw, hr⟩ | ⟨hw, hr⟩ | ⟨name, arguments, hw, hr⟩ <;>
    rw [hr]
  · exact .stay (by rw [asksToStop, hw])
  · exact .stay (by rw [asksToStop, hw]; rfl)
  · exact (fits_execute s name arguments).effect hw

/-- **A shell stops** when a line asks it to, and at no other line. -/
theorem Effect.running_eq (h : s.Effect line s' failure) :
    s'.running = (s.running && !asksToStop line) := by
  cases h with
  | stop hstops => simp [hstops]
  | move hstops _ => simp [hstops]
  | stay hstops => simp [hstops]

/-- A shell keeps its tree. -/
theorem Effect.root_eq (h : s.Effect line s' failure) : s'.root = s.root := by
  cases h <;> rfl

/-- **A shell moves** when a line asks it to and does not fail, and at no other line. -/
theorem Effect.directory_eq (h : s.Effect line s' failure) :
    s'.directory = s.directory ∨ failure = none ∧ s.MovesTo line s'.directory := by
  cases h with
  | stop _ => exact .inl rfl
  | move _ hmoves => exact .inr ⟨rfl, hmoves⟩
  | stay _ => exact .inl rfl

/-- What is printed for a line: what it prints, or the text of its failure, as a line. -/
def told (s : Shell) (line : Text) : Text :=
  match (s.executeLine line).failure with
  | none => (s.executeLine line).output
  | some e => asLine e.message

/-! ## One line after the other -/

/-- The shell after some lines. -/
def afterLines (s : Shell) (lines : List Text) : Shell :=
  lines.foldl (fun s line => (s.executeLine line).shell) s

/-- What is printed for each of some lines. -/
def outputs (s : Shell) : List Text → List Text
  | [] => []
  | line :: lines => s.told line :: outputs (s.executeLine line).shell lines

theorem afterLines_cons (s : Shell) (line : Text) (lines : List Text) :
    s.afterLines (line :: lines) = (s.executeLine line).shell.afterLines lines := rfl

/-- A shell takes further commands after some lines if none of them has asked it to stop. -/
theorem running_afterLines (s : Shell) (lines : List Text) :
    (s.afterLines lines).running = (s.running && !lines.any asksToStop) := by
  induction lines generalizing s with
  | nil => exact (Bool.and_true _).symm
  | cons line lines ih =>
    rw [afterLines_cons, ih, (effect_executeLine s line).running_eq, List.any_cons, Bool.not_or,
      Bool.and_assoc]

end DirectoryListing.Shell
