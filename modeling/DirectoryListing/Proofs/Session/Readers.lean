import DirectoryListing.Proofs.Session.Steps
import DirectoryListing.Proofs.Shell.Notice

/-!
# Sessions at a terminal and over a stream

A terminal hands a line over without its line feed, a stream with it. The words of a line are the
same either way, unless the line feed is behind a backslash: then the line has no words at a
terminal, and over a stream the line feed is a part of the last one. So a session comes to the same
at a terminal and over a stream when none of the lines that it reads is of that kind, and to
different outputs when one is.

## Main definitions

* `Session.Outcome.Agrees o o'`: the same output, the same directory and the same lines unread

## Main results

* `Session.agrees_obeyAll`: the two sessions agree up to such a line
* `Session.output_obeyAll_ne`: they print different texts if there is one
* `Session.run_agrees_iff`: when the two sessions agree
-/

namespace DirectoryListing.Session

open Listing (emptyListing emptyTree parse_emptyListing)
open Words (escapedLine)

variable {strict : Bool} {lines script : List Text} {s : Shell} {t : Tree}
  {line line' prompt : Text}

/-! ## Lines -/

theorem hand_terminal_append (t : Text) : Reader.terminal.hand (t ++ ['\n']) = t := by
  simp [Reader.hand]

theorem hand_terminal_of_not_mem (h : '\n' ∉ line) : Reader.terminal.hand line = line := by
  have hlast : line.getLast? ≠ some '\n' := fun hlast => h (List.mem_of_getLast? hlast)
  rw [Reader.hand, if_neg hlast]

/-- A line comes to the same words in either way, unless a backslash is before its line feed. -/
theorem split_hand_terminal (hl : line.IsLine) (he : ¬ Words.EscapesEnd line) :
    Words.split (Reader.terminal.hand line) = Words.split line := by
  obtain ⟨t, ht, rfl | rfl⟩ := hl
  · rw [hand_terminal_of_not_mem ht]
  · rw [hand_terminal_append, Words.split_append_of_not_escapesEnd he]

/-- What a line comes to, its records apart, depends on its words only. -/
theorem turn_congr (s : Shell) (h : Words.split line = Words.split line') :
    (turn s line).shell = (turn s line').shell ∧ (turn s line).output = (turn s line').output := by
  have hreply : s.executeLine line = s.executeLine line' := by
    unfold Shell.executeLine
    rw [h]
  refine ⟨by rw [shell_turn, shell_turn, hreply], ?_⟩
  cases hf : (s.executeLine line').failure with
  | none => rw [turn_of_success hf, turn_of_success (hreply ▸ hf), hreply]
  | some e => rw [turn_of_failure hf, turn_of_failure (hreply ▸ hf)]

/-! ## Sessions that agree -/

/-- Two sessions print the same, end in the same directory and leave the same lines unread. -/
structure Outcome.Agrees (o o' : Outcome) : Prop where
  output : o.output = o'.output
  directory : o.shell.directory = o'.shell.directory
  unread : o.unread = o'.unread

theorem Outcome.Agrees.after {o o' : Outcome} (h : o.Agrees o') (output : Text)
    (log log' : List Log.Record) : (o.after output log).Agrees (o'.after output log') :=
  ⟨congrArg (output ++ ·) h.output, h.directory, h.unread⟩

/-- **The two sessions agree** when no line that is read has a backslash before its line feed. -/
theorem agrees_obeyAll (hlines : ∀ line ∈ script, line.IsLine)
    (h : ∀ p ∈ steps .stream s script, ¬ Words.EscapesEnd p.2) :
    (obeyAll .terminal prompt s script).Agrees (obeyAll .stream prompt s script) := by
  induction script generalizing s with
  | nil => exact ⟨rfl, rfl, rfl⟩
  | cons line rest ih =>
    obtain ⟨hline, hrest⟩ := List.forall_mem_cons.mp hlines
    rw [steps] at h
    obtain ⟨he, hsteps⟩ := List.forall_mem_cons.mp h
    -- the line leaves the same shell in both, and they go on alike or stop alike
    obtain ⟨hshell, houtput⟩ := turn_congr s (split_hand_terminal hline he)
    cases hrun : (turn s line).shell.running with
    | true =>
      rw [obeyAll_cons_of_running (hshell ▸ hrun), obeyAll_cons_of_running hrun, hshell, houtput]
      refine (ih hrest fun p hp => hsteps p ?_).after _ _ _
      exact (if_pos hrun).symm ▸ hp
    | false =>
      rw [obeyAll_cons_of_not_running (hshell ▸ hrun), obeyAll_cons_of_not_running hrun, hshell,
        houtput]
      exact ⟨rfl, rfl, rfl⟩

/-! ## Sessions that do not agree -/

/-- A session prints the prompt first. -/
theorem prompt_prefix_output (reader : Reader) (prompt : Text) (s : Shell) (script : List Text) :
    prompt <+: (obeyAll reader prompt s script).output := by
  cases script with
  | nil => exact List.prefix_refl prompt
  | cons line rest =>
    rw [obeyAll]
    split
    · exact ⟨_, (List.append_assoc _ _ _).symm⟩
    · exact List.prefix_append prompt _

/-- Behind what its first line comes to, a session prints the prompt again, or nothing. -/
theorem exists_output_cons (reader : Reader) (prompt : Text) (s : Shell) (line : Text)
    (rest : List Text) : ∃ u, (obeyAll reader prompt s (line :: rest)).output =
      prompt ++ ((turn s (reader.hand line)).output ++ u) ∧ (u = [] ∨ prompt <+: u) := by
  cases hrun : (turn s (reader.hand line)).shell.running with
  | true =>
    rw [obeyAll_cons_of_running hrun]
    exact ⟨_, List.append_assoc _ _ _, .inr (prompt_prefix_output _ _ _ _)⟩
  | false =>
    rw [obeyAll_cons_of_not_running hrun]
    exact ⟨[], by simp, .inl rfl⟩

theorem output_turn_of_openEscape (h : Words.split line = .error .openEscape) :
    (turn s line).output = Shell.asLine Shell.notice := by
  have hf : (s.executeLine line).failure = some (.words .openEscape) := by
    unfold Shell.executeLine
    rw [h]
    rfl
  exact turn_of_failure hf

section Tree

variable (hs : s.StandsIn t) (hread : t.Every Listing.IsRead)
  (hnames : ∀ n ∈ (Node.ofTree t).preorder, '\n' ∉ n.name ∧ n.name ≠ Shell.notice)

include hs hread hnames

/-- All that is printed for a line that does not end in a backslash starts with another line than
the notice. -/
theorem not_notice_prefix_turn (hw : Words.split line ≠ .error .openEscape)
    (hne : (turn s line).output ≠ []) (u : Text) :
    ¬ Shell.asLine Shell.notice <+: (turn s line).output ++ u := by
  rcases Shell.executeLine_cases s line with ⟨e, he, hr⟩ | ⟨-, hr⟩ | ⟨name, arguments, -, hr⟩
  · have hf : (s.executeLine line).failure = some (.words e) := by rw [hr]; rfl
    rw [turn_of_failure hf]
    cases e with
    | openQuotation =>
      have h : (Shell.asLine Shell.notice).Apart
          (Shell.asLine (Shell.Failure.words .openQuotation).message) := by decide
      exact (h.append u).1
    | openEscape => exact absurd he hw
  · have hf : (s.executeLine line).failure = none := by rw [hr]; rfl
    rw [turn_of_success hf, hr] at hne
    exact absurd rfl hne
  · have hfits := Shell.fits_execute s name arguments
    rw [← hr, Shell.Reply.Fits] at hfits
    cases hf : (s.executeLine line).failure with
    | none =>
      rw [hf] at hfits
      rw [turn_of_success hf] at hne ⊢
      exact hfits.not_notice_prefix_output hs hread hnames hne u
    | some e =>
      rw [hf] at hfits
      rw [turn_of_failure hf, Shell.asLine_append]
      intro h
      exact (hfits.apart_message.append _).1 (Shell.notice_prefix_of_line h)

/-- **The two sessions print different texts** when a line that is read has a backslash before its
line feed. -/
theorem output_obeyAll_ne (hprompt : '\n' ∉ prompt) (hstart : ¬ prompt <+: Shell.notice)
    (hlines : ∀ line ∈ script, line.IsLine)
    (h : ∃ p ∈ steps .stream s script, Words.EscapesEnd p.2) :
    (obeyAll .terminal prompt s script).output ≠ (obeyAll .stream prompt s script).output := by
  induction script generalizing s with
  | nil =>
    obtain ⟨p, hp, -⟩ := h
    cases hp
  | cons line rest ih =>
    obtain ⟨hline, hrest⟩ := List.forall_mem_cons.mp hlines
    by_cases he : Words.EscapesEnd line
    · -- the notice at the terminal; over the stream something else, or the prompt, or nothing
      obtain ⟨w, rfl, hw⟩ := he
      obtain ⟨u, hu, -⟩ := exists_output_cons .terminal prompt s (w ++ ['\n']) rest
      obtain ⟨v, hv, hprompts⟩ := exists_output_cons .stream prompt s (w ++ ['\n']) rest
      rw [hand_terminal_append, output_turn_of_openEscape hw] at hu
      rw [hu, hv, Ne, List.append_cancel_left_eq]
      intro heq
      by_cases hout : (turn s (w ++ ['\n'])).output = []
      · have heq : Shell.asLine Shell.notice ++ u = v := by
          rwa [Reader.hand, hout, List.nil_append] at heq
        rw [Shell.asLine_append] at heq
        rcases hprompts with rfl | hprompts
        · simp at heq
        · rw [← heq] at hprompts
          exact hstart (Text.prefix_of_prefix_lineFeed hprompt hprompts)
      · refine not_notice_prefix_turn hs hread hnames (Words.split_append_ne_openEscape w) hout v ?_
        exact ⟨u, heq⟩
    · obtain ⟨hshell, houtput⟩ := turn_congr s (split_hand_terminal hline he)
      obtain ⟨p, hp, hescapes⟩ := h
      rw [steps] at hp
      rcases List.mem_cons.mp hp with rfl | hp
      · exact absurd hescapes he
      · split at hp
        · next hrun =>
          have hin : (turn s line).shell.StandsIn t := shell_turn s line ▸ hs.executeLine line
          have hne := ih hin hrest ⟨p, hp, hescapes⟩
          rw [obeyAll_cons_of_running (hshell ▸ hrun), obeyAll_cons_of_running hrun, hshell,
            houtput]
          exact fun heq => hne (List.append_cancel_left heq)
        · cases hp

end Tree

/-! ## Whole sessions -/

theorem not_mem_prompt {options : Shell.Options} (h : options.problems = []) :
    '\n' ∉ options.prompt := by
  intro hc
  simp [Shell.Options.problems, hc] at h

/-- **When the two sessions agree.** They do when no line that is read has a backslash before its
line feed. When one has, the terminal's session says that it has no words, and that of the stream
does not: the two differ, unless by chance the stream's session prints the same words on another
ground, which takes a prompt that they start with, or a file or directory of that name. -/
theorem run_agrees_iff (h : (Listing.parse strict lines).result = .ok t) (hs : s.StandsIn t)
    (prompt script : Text) (listing : Listing.Options)
    (isTerminal isTerminal' hasEditing hasEditing' : Bool) :
    let options : Shell.Options := ⟨prompt, some true, listing⟩
    let terminal := run s options ⟨script.lines, true, isTerminal, hasEditing⟩
    let stream := run s options ⟨script.lines, false, isTerminal', hasEditing'⟩
    let unescaped := ∀ p ∈ steps .stream { s with running := true } script.lines,
      ¬ Words.EscapesEnd p.2
    (unescaped → terminal.Agrees stream) ∧
      (options.problems = [] → ¬ prompt <+: Shell.notice →
        (∀ n ∈ (Node.ofTree t).preorder, n.name ≠ Shell.notice) →
          (terminal.Agrees stream ↔ unescaped)) := by
  intro options terminal stream unescaped
  have hlines : ∀ line ∈ script.lines, line.IsLine := fun line => Text.isLine_of_mem_lines
  have agrees : unescaped → terminal.Agrees stream := by
    intro hsteps
    obtain ⟨output, directory, unread⟩ :
        (obeyAll .terminal prompt { s with running := true } script.lines).Agrees
          (obeyAll .stream prompt { s with running := true } script.lines) :=
      agrees_obeyAll hlines hsteps
    exact ⟨output, directory, unread⟩
  refine ⟨agrees, fun hproblems hstart hnotice => ⟨fun hagrees => ?_, agrees⟩⟩
  intro p hp he
  have hin : Shell.StandsIn t { s with running := true } := ⟨hs.root, hs.directory⟩
  have hnames : ∀ n ∈ (Node.ofTree t).preorder, '\n' ∉ n.name ∧ n.name ≠ Shell.notice :=
    fun n hn => ⟨Listing.not_mem_name h n hn, hnotice n hn⟩
  have hprompt : '\n' ∉ prompt := not_mem_prompt hproblems
  exact output_obeyAll_ne hin (Listing.every_isRead h) hnames hprompt hstart hlines ⟨p, hp, he⟩
    hagrees.output

/-! ## A line feed behind a backslash -/

/-- A script that stops its session. -/
def quitScript : Text := "pwd\nquit\nls\n".toList

theorem not_escapesEnd_quitScript :
    ∀ p ∈ steps .stream (.atRoot emptyTree) quitScript.lines, ¬ Words.EscapesEnd p.2 := by
  have hpwd : ¬ Words.EscapesEnd ("pwd".toList ++ ['\n']) :=
    fun h => nomatch Words.escapesEnd_append.mp h
  have hquit : ¬ Words.EscapesEnd ("quit".toList ++ ['\n']) :=
    fun h => nomatch Words.escapesEnd_append.mp h
  exact List.forall_mem_cons.mpr ⟨hpwd, List.forall_mem_cons.mpr ⟨hquit, nofun⟩⟩

/-- The sessions over one script agree, and those over the line that ends in a line feed behind a
backslash do not. -/
theorem run_agrees_iff_escapedLine :
    let options : Shell.Options := ⟨"> ".toList, some true, .default⟩
    let terminal (script : Text) := run (.atRoot emptyTree) options ⟨script.lines, true, true, true⟩
    let stream (script : Text) := run (.atRoot emptyTree) options ⟨script.lines, false, false, true⟩
    (Listing.parse true emptyListing).result = .ok emptyTree ∧
    (Shell.atRoot emptyTree).StandsIn emptyTree ∧
    options.problems = [] ∧ ¬ options.prompt <+: Shell.notice ∧
    (∀ n ∈ (Node.ofTree emptyTree).preorder, n.name ≠ Shell.notice) ∧
    (terminal quitScript).Agrees (stream quitScript) ∧
    ¬ (terminal escapedLine).Agrees (stream escapedLine) := by
  intro options terminal stream
  have hs := Shell.standsIn_atRoot emptyTree
  have hproblems : options.problems = [] := by decide
  have hstart : ¬ options.prompt <+: Shell.notice := by decide
  have hnames : ∀ n ∈ (Node.ofTree emptyTree).preorder, n.name ≠ Shell.notice := by
    decide +kernel
  obtain ⟨agrees, -⟩ := run_agrees_iff parse_emptyListing hs options.prompt quitScript .default
    true false true true
  obtain ⟨-, agrees_iff⟩ := run_agrees_iff parse_emptyListing hs options.prompt escapedLine .default
    true false true true
  refine ⟨parse_emptyListing, hs, hproblems, hstart, hnames, agrees not_escapesEnd_quitScript, ?_⟩
  rw [agrees_iff hproblems hstart hnames]
  intro unescaped
  exact unescaped (.atRoot emptyTree, escapedLine) List.mem_cons_self Words.escapesEnd_escapedLine

/-- A session at a terminal need not agree with one over a stream. -/
theorem not_forall_run_agrees :
    ¬ ∀ (lines : List Text) (t : Tree) (options : Shell.Options) (script : Text),
      (Listing.parse true lines).result = .ok t → options.interactive = some true →
        options.problems = [] →
          (run (.atRoot t) options ⟨script.lines, true, true, true⟩).Agrees
            (run (.atRoot t) options ⟨script.lines, false, false, true⟩) := by
  intro h
  have hagrees := h emptyListing emptyTree ⟨"> ".toList, some true, .default⟩ escapedLine
    parse_emptyListing rfl (by decide)
  have houtput := hagrees.output
  revert houtput
  decide

end DirectoryListing.Session
