import DirectoryListing.Proofs.Session.Scripts

/-!
# Failures are contained

A session tells the failures of this library's own kinds and goes on; a fault of any other kind,
which is a misuse of an operation, would end it. No line comes to such a fault, and so a session
runs to its end. A line that fails leaves the shell as it was, whole: with the line taken out of the
script, the session differs by what it has told of the failure and by nothing else.

## Main definitions

* `Session.attempt s line`, `Session.attemptAll`, `Session.attemptRun`: a session that a fault of
  another kind ends
* `Shell.Contains s line`: what a line can do to a shell
* `Session.Outcome.DiffersBy o o' before told`: a session that tells something more

## Main results

* `Shell.contains`: a line can do no more, whatever it is
* `Session.attemptRun_eq`: no fault ends a session
* `Session.differsBy_obeyAll`: a session without a line that fails
* `Session.run_contains`: failures are contained
-/

namespace DirectoryListing

variable {s : Shell} {line prompt : Text} {e : Shell.Failure}

namespace Shell

/-- What a line can do to a shell. If it fails, then with a fault of this library's own, and the
shell stays as it is. The tree is kept. The shell stands elsewhere only after a command to move that
does not fail, and takes no further commands only after a command to stop. -/
structure Contains (s : Shell) (line : Text) : Prop where
  own : ∀ e, (s.executeLine line).failure = some e → e.fault.kind?.isSome = true
  unchanged : ∀ e, (s.executeLine line).failure = some e → (s.executeLine line).shell = s
  root : (s.executeLine line).shell.root = s.root
  directory : (s.executeLine line).shell.directory = s.directory ∨
    (s.executeLine line).failure = none ∧ s.MovesTo line (s.executeLine line).shell.directory
  running : (s.executeLine line).shell.running = (s.running && !asksToStop line)

/-- **Whatever the line**, it is contained. -/
theorem contains (s : Shell) (line : Text) : s.Contains line where
  own _ h := isSome_kind?_of_failure h
  unchanged _ h := (executeLine_of_failure h).2
  root := (effect_executeLine s line).root_eq
  directory := (effect_executeLine s line).directory_eq
  running := (effect_executeLine s line).running_eq

end Shell

namespace Session

open Listing (emptyTree)

variable {reader : Reader} {before : List Text}

/-! ## Faults that would end a session -/

/-- Obeys a line. A failure is told, if its fault is one of this library's own; any other fault is
passed on. -/
def attempt (s : Shell) (line : Text) : Except Fault Turn :=
  match (s.executeLine line).failure with
  | none => .ok (turn s line)
  | some e => if e.fault.kind?.isSome then .ok (turn s line) else .error e.fault

/-- Obeys the lines of a script, up to one that asks to stop, or one whose fault is passed on. -/
def attemptAll (reader : Reader) (prompt : Text) (s : Shell) : List Text → Except Fault Outcome
  | [] => .ok ⟨prompt, s, [], []⟩
  | line :: rest =>
    match attempt s (reader.hand line) with
    | .error f => .error f
    | .ok t =>
      if t.shell.running then
        (attemptAll reader prompt t.shell rest).map (·.after (prompt ++ t.output) t.log)
      else .ok ⟨prompt ++ t.output, t.shell, rest, t.log⟩

/-- A session over the given input, which a fault may end. -/
def attemptRun (s : Shell) (options : Shell.Options) (input : Input) : Except Fault Outcome :=
  let reader := input.reader options
  let log := if reader = .terminal && !input.hasEditing then [noEditingRecord] else []
  (attemptAll reader (input.promptFor options) { s with running := true } input.script).map
    (·.after [] log)

theorem attempt_eq (s : Shell) (line : Text) : attempt s line = .ok (turn s line) := by
  cases hf : (s.executeLine line).failure with
  | none => simp only [attempt, hf]
  | some e => simp only [attempt, hf, (s.contains line).own e hf, if_true]

theorem attemptAll_eq (reader : Reader) (prompt : Text) (s : Shell) (script : List Text) :
    attemptAll reader prompt s script = .ok (obeyAll reader prompt s script) := by
  induction script generalizing s with
  | nil => rfl
  | cons line rest ih =>
    rw [attemptAll, attempt_eq, obeyAll]
    simp only [ih]
    split <;> rfl

/-- **No fault ends a session.** -/
theorem attemptRun_eq (s : Shell) (options : Shell.Options) (input : Input) :
    attemptRun s options input = .ok (run s options input) := by
  rw [attemptRun, attemptAll_eq]
  rfl

/-! ## A session without a line that fails -/

/-- After lines that do not ask to stop, a session goes on with the shell that they leave. -/
theorem obeyAll_append (prompt : Text) (hs : s.running = true)
    (hbefore : ∀ l ∈ before, Shell.asksToStop (reader.hand l) = false) (rest : List Text) :
    ∃ log, obeyAll reader prompt s (before ++ rest) =
      (obeyAll reader prompt (s.afterLines (before.map reader.hand)) rest).after
        ((s.outputs (before.map reader.hand)).flatMap (prompt ++ ·)) log := by
  induction before generalizing s with
  | nil => exact ⟨[], rfl⟩
  | cons line before ih =>
    obtain ⟨hline, hbefore⟩ := List.forall_mem_cons.mp hbefore
    have hrun : (turn s (reader.hand line)).shell.running = true := by
      rw [shell_turn, (Shell.effect_executeLine s _).running_eq, hs, hline]
      rfl
    obtain ⟨log, hlater⟩ := ih hrun hbefore
    refine ⟨(turn s (reader.hand line)).log ++ log, ?_⟩
    rw [List.cons_append, obeyAll_cons_of_running hrun, hlater, shell_turn, output_turn,
      List.map_cons, Shell.afterLines_cons, Shell.outputs, List.flatMap_cons]
    simp only [Outcome.after, List.append_assoc]

/-- After a line that fails, a session goes on as if the line had not been there. -/
theorem obeyAll_cons_of_failure (hs : s.running = true)
    (h : (s.executeLine (reader.hand line)).failure = some e) (rest : List Text) :
    obeyAll reader prompt s (line :: rest) = (obeyAll reader prompt s rest).after
      (prompt ++ Shell.asLine e.message) (turn s (reader.hand line)).log := by
  have same : (turn s (reader.hand line)).shell = s :=
    (shell_turn s _).trans ((s.contains _).unchanged e h)
  have hrun : (turn s (reader.hand line)).shell.running = true := same.symm ▸ hs
  rw [obeyAll_cons_of_running hrun, same, turn_of_failure h]

/-- The one session tells something that the other does not, behind what both have told before. They
leave the same shell and the same lines unread, and all else that they print is the same. -/
structure Outcome.DiffersBy (o o' : Outcome) (before told : Text) : Prop where
  shell : o.shell = o'.shell
  unread : o.unread = o'.unread
  output : ∃ later, o.output = before ++ told ++ later ∧ o'.output = before ++ later

/-- **A session without a line that fails** differs from the session by the prompt before the line
and the text of the failure. -/
theorem differsBy_obeyAll (prompt : Text) (hs : s.running = true)
    (hbefore : ∀ l ∈ before, Shell.asksToStop (reader.hand l) = false)
    (h : ((s.afterLines (before.map reader.hand)).executeLine (reader.hand line)).failure = some e)
    (after : List Text) :
    (obeyAll reader prompt s (before ++ line :: after)).DiffersBy
      (obeyAll reader prompt s (before ++ after))
      ((s.outputs (before.map reader.hand)).flatMap (prompt ++ ·))
      (prompt ++ Shell.asLine e.message) := by
  have hrun : (s.afterLines (before.map reader.hand)).running = true := by
    rw [Shell.running_afterLines]
    simpa [hs] using hbefore
  obtain ⟨log, hwith⟩ := obeyAll_append prompt hs hbefore (line :: after)
  obtain ⟨log', hwithout⟩ := obeyAll_append prompt hs hbefore after
  rw [hwith, hwithout, obeyAll_cons_of_failure hrun h]
  exact ⟨rfl, rfl, _, (List.append_assoc _ _ _).symm, rfl⟩

/-! ## Whole sessions -/

/-- **Failures are contained.** No fault ends a session. Whatever line it reads, the shell can be
changed by a command to move that does not fail and by a command to stop, and by nothing else. And
with a line taken out that fails, the session differs by what it has told of the failure. -/
theorem run_contains (s : Shell) (options : Shell.Options) (input : Input) :
    let start : Shell := { s with running := true }
    let hand := (input.reader options).hand
    let prompt := input.promptFor options
    attemptRun s options input = .ok (run s options input) ∧
      (∀ p ∈ steps (input.reader options) start input.script, p.1.Contains (hand p.2)) ∧
      ∀ before line after e, input.script = before ++ line :: after →
        (∀ l ∈ before, Shell.asksToStop (hand l) = false) →
        ((start.afterLines (before.map hand)).executeLine (hand line)).failure = some e →
          (run s options input).DiffersBy (run s options { input with script := before ++ after })
            ((start.outputs (before.map hand)).flatMap (prompt ++ ·))
            (prompt ++ Shell.asLine e.message) := by
  intro start hand prompt
  refine ⟨attemptRun_eq s options input, fun p _ => p.1.contains (hand p.2), ?_⟩
  intro before line after e hscript hbefore hfails
  obtain ⟨script, ofProcess, isTerminal, hasEditing⟩ := input
  obtain rfl : script = before ++ line :: after := hscript
  obtain ⟨shell, unread, output⟩ := differsBy_obeyAll (s := start) prompt rfl hbefore hfails after
  exact ⟨shell, unread, output⟩

/-- A script with a command that does not exist. -/
def unknownScript : List Text := ["pwd\n".toList, "x\n".toList, "pwd\n".toList]

/-- The session tells of the command, and goes on as if it had not been there. -/
theorem run_contains_unknownScript :
    let input (script : List Text) : Input := ⟨script, true, false, true⟩
    let e : Shell.Failure := .unknownCommand ['x']
    ((Shell.atRoot emptyTree).executeLine "x\n".toList).failure = some e ∧
      attemptRun (.atRoot emptyTree) .default (input unknownScript) =
        .ok (run (.atRoot emptyTree) .default (input unknownScript)) ∧
      (Shell.atRoot emptyTree).Contains "pwd\n".toList ∧
      (run (.atRoot emptyTree) .default (input unknownScript)).DiffersBy
        (run (.atRoot emptyTree) .default (input ["pwd\n".toList, "pwd\n".toList]))
        "/\n".toList (Shell.asLine e.message) := by
  intro input e
  have hfails : ((Shell.atRoot emptyTree).executeLine "x\n".toList).failure = some e := rfl
  obtain ⟨ends, steps, without⟩ :=
    run_contains (.atRoot emptyTree) .default (input unknownScript)
  exact ⟨hfails, ends, steps (.atRoot emptyTree, "pwd\n".toList) List.mem_cons_self,
    without ["pwd\n".toList] "x\n".toList ["pwd\n".toList] e rfl (by decide) hfails⟩

end Session

end DirectoryListing
