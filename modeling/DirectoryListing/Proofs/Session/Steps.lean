import DirectoryListing.Proofs.Shell.Failures
import DirectoryListing.Session

/-!
# The steps of a session

A session goes line by line: what a line leaves of the shell is what the next one meets, and what
the session prints, prompts apart, is what its lines come to, one after the other.

## Main definitions

* `Session.steps reader s script`: the lines that are read, each with the shell that it meets

## Main results

* `Session.output_obeyAll_nil`: the output of a session without a prompt
* `Session.standsIn_of_mem_steps`: the shell stays in its tree along a session
* `Session.turn_of_failure`: what is printed for a line that fails
-/

namespace DirectoryListing.Session

variable {reader : Reader} {s : Shell} {t : Tree} {line prompt : Text} {script : List Text}
  {p : Shell × Text} {e : Shell.Failure}

/-! ## Turns -/

theorem shell_turn (s : Shell) (line : Text) :
    (turn s line).shell = (s.executeLine line).shell := by
  simp only [turn]
  split <;> rfl

theorem turn_of_success (h : (s.executeLine line).failure = none) :
    (turn s line).output = (s.executeLine line).output := by
  unfold turn
  simp only [h]

/-- What is printed for a line that fails is the text of the failure, as a line. -/
theorem turn_of_failure (h : (s.executeLine line).failure = some e) :
    (turn s line).output = Shell.asLine e.message := by
  unfold turn
  simp only [h, (Shell.executeLine_of_failure h).1, List.nil_append]

/-! ## Runs -/

theorem obeyAll_cons_of_running (h : (turn s (reader.hand line)).shell.running = true) :
    obeyAll reader prompt s (line :: script) =
      (obeyAll reader prompt (turn s (reader.hand line)).shell script).after
        (prompt ++ (turn s (reader.hand line)).output) (turn s (reader.hand line)).log := by
  rw [obeyAll, if_pos h]

theorem obeyAll_cons_of_not_running (h : (turn s (reader.hand line)).shell.running = false) :
    obeyAll reader prompt s (line :: script) =
      ⟨prompt ++ (turn s (reader.hand line)).output, (turn s (reader.hand line)).shell, script,
        (turn s (reader.hand line)).log⟩ := by
  rw [obeyAll, if_neg (by simp [h])]

/-! ## Steps -/

/-- The lines that a session reads, up to one that stops it, each with the shell that it meets. -/
def steps (reader : Reader) (s : Shell) : List Text → List (Shell × Text)
  | [] => []
  | line :: rest =>
    let t := turn s (reader.hand line)
    (s, line) :: if t.shell.running then steps reader t.shell rest else []

/-- **What holds of a shell** and is kept by whatever it is asked holds all along a session. -/
theorem forall_mem_steps {P : Shell → Prop} (hs : P s)
    (h : ∀ s line, P s → P (s.executeLine line).shell) :
    ∀ p ∈ steps reader s script, P p.1 := by
  induction script generalizing s with
  | nil => exact nofun
  | cons line rest ih =>
    refine List.forall_mem_cons.mpr ⟨hs, fun p hp => ?_⟩
    split at hp
    · refine ih ?_ p hp
      rw [shell_turn]
      exact h s _ hs
    · cases hp

/-- What is kept by whatever a shell is asked holds at the end of a session as well. -/
theorem shell_obeyAll {P : Shell → Prop} (hs : P s)
    (h : ∀ s line, P s → P (s.executeLine line).shell) :
    P (obeyAll reader prompt s script).shell := by
  induction script generalizing s with
  | nil => exact hs
  | cons line rest ih =>
    have next : P (turn s (reader.hand line)).shell := by
      rw [shell_turn]
      exact h s _ hs
    rw [obeyAll]
    split
    · exact ih next
    · exact next

theorem standsIn_of_mem_steps (hs : s.StandsIn t) :
    ∀ p ∈ steps reader s script, p.1.StandsIn t :=
  forall_mem_steps hs fun _ line h => h.executeLine line

/-- The lines of the steps are lines of the script. -/
theorem line_mem_script : ∀ p ∈ steps reader s script, p.2 ∈ script := by
  induction script generalizing s with
  | nil => exact nofun
  | cons line rest ih =>
    refine List.forall_mem_cons.mpr ⟨List.mem_cons_self, fun p hp => ?_⟩
    split at hp
    · exact List.mem_cons_of_mem _ (ih p hp)
    · cases hp

/-- **The output of a session** without a prompt is what its lines come to. -/
theorem output_obeyAll_nil : (obeyAll reader [] s script).output =
    (steps reader s script).flatMap fun p => (turn p.1 (reader.hand p.2)).output := by
  induction script generalizing s with
  | nil => rfl
  | cons line rest ih =>
    rw [obeyAll, steps, List.flatMap_cons]
    split
    · simp only [Outcome.after, List.nil_append, ih]
    · simp

end DirectoryListing.Session
