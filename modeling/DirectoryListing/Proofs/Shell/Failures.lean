import DirectoryListing.Proofs.Shell.Answers
import DirectoryListing.Proofs.Words.LineEnds

/-!
# The texts of failures

The text of a failure quotes words of the line that fails, and is one line as long as they are. So
it is with every line but those that end in a line feed behind a backslash. There the last word
holds the line feed, and it depends on what the failure blames whether its text does.

Nothing else brings a line feed in: the names of the tree hold none, and so neither does the path of
the directory that the shell stands in.

## Main definitions

* `Shell.Blames s before last`: a command of these words fails on the last of them
* `Shell.BlamesLineFeed s line`: the line fails on a last word that ends in a line feed

## Main results

* `Shell.isSome_kind?_of_failure`: every failure is one of this library's own
* `Shell.StandsIn.mem_message_iff`: when the text of a failure holds a line feed
-/

namespace DirectoryListing.Shell

variable {s s' : Shell} {t : Tree} {n : Node} {path line output name last x : Text}
  {before words : List Text} {e : Failure} {err : Node.StepError}

/-! ## Kinds -/

theorem Answers.isSome_kind? (h : Answers s words s' output (some e)) :
    e.fault.kind?.isSome = true := by
  cases h with
  | nowhere _ _ =>
    rename_i err _ _
    cases err <;> rfl
  | _ => rfl

/-- **Every failure** is one of this library's own, and not a misuse of it. -/
theorem isSome_kind?_of_failure (h : (s.executeLine line).failure = some e) :
    e.fault.kind?.isSome = true := by
  rcases executeLine_cases s line with ⟨err, -, hr⟩ | ⟨-, hr⟩ | ⟨name, arguments, -, hr⟩ <;>
    rw [hr] at h
  · cases h
    rfl
  · cases h
  · have hfits := fits_execute s name arguments
    rw [Reply.Fits, h] at hfits
    exact hfits.isSome_kind?

/-! ## Paths that lead nowhere -/

/-- What stops the way that a path leads is one of its names, and the text quotes nothing else. -/
theorem resolve_eq_error (h : s.resolve path = .error err) :
    (∃ x ∈ s.namesTo path, err = .unknownEntry x) ∨
      ∃ x ∈ [] :: s.namesTo path, err = .notDirectory x (Path.ofSegments (s.namesTo path)) := by
  rw [resolve_eq] at h
  exact Node.walk_eq_error h

theorem mem_message_unknownEntry :
    '\n' ∈ (Node.StepError.unknownEntry x).fault.message ↔ '\n' ∈ x :=
  Text.mem_append_iff (s := "no such file or directory - ".toList) (by decide)

theorem mem_message_notDirectory :
    '\n' ∈ (Node.StepError.notDirectory x path).fault.message ↔ '\n' ∈ x ∨ '\n' ∈ path := by
  have ha : '\n' ∉ "not a directory - ".toList := by decide
  have hb : '\n' ∉ " (while resolving ".toList := by decide
  have hc : '\n' ∉ ")".toList := by decide
  show '\n' ∈ "not a directory - ".toList ++ x ++ " (while resolving ".toList ++ path ++
    ")".toList ↔ _
  simp only [List.mem_append, ha, hb, hc, false_or, or_false]

theorem not_mem_message_words (err : Words.Error) : '\n' ∉ (Failure.words err).message := by
  cases err <;> decide

theorem mem_message_unknownCommand : '\n' ∈ (Failure.unknownCommand name).message ↔ '\n' ∈ name :=
  Text.mem_append_iff (s := "no such command - ".toList) (by decide)

theorem mem_message_file : '\n' ∈ (Failure.notDirectory path).message ↔ '\n' ∈ path :=
  Text.mem_append_iff (s := "not a directory - ".toList) (by decide)

/-- Of the names that a path leads along, the last one holds the line feed that the path ends in. -/
theorem exists_mem_namesTo (s : Shell) (last : Text) :
    ∃ x ∈ s.namesTo (last ++ ['\n']), '\n' ∈ x := by
  obtain ⟨u, hu⟩ := Path.exists_join_append s.directory.path (last ++ ['\n'])
  rw [← List.append_assoc] at hu
  have hsep : '\n' ≠ '/' := by decide
  obtain ⟨pieces, piece, -, hp⟩ := Text.split_append_singleton hsep (u ++ last)
  -- with the line feed it is none of the segments that stand for no name
  have hne : ∀ q : Text, '\n' ∉ q → piece ++ ['\n'] ≠ q := by
    rintro q hq rfl
    exact hq (by simp)
  obtain ⟨names, hn⟩ := Path.names_of_segments_concat hp (hne _ (by decide)) (hne _ (by decide))
    (hne _ (by decide))
  rw [namesTo, hu, hn]
  exact ⟨_, List.mem_append_right _ List.mem_cons_self, by simp⟩

/-- A path that ends in a line feed is blamed with it, unless the way breaks off before. -/
theorem mem_message_resolve_lineFeed (h : s.resolve (last ++ ['\n']) = .error err) :
    '\n' ∈ err.fault.message ↔ ∀ x, err = .unknownEntry x → '\n' ∈ x := by
  rcases resolve_eq_error h with ⟨x, hx, rfl⟩ | ⟨x, hx, rfl⟩
  · rw [mem_message_unknownEntry]
    exact ⟨fun hc y hy => Node.StepError.unknownEntry.inj hy ▸ hc, fun hc => hc x rfl⟩
  · rw [mem_message_notDirectory]
    obtain ⟨y, hy, hc⟩ := exists_mem_namesTo s last
    exact iff_of_true (.inr (Path.mem_ofSegments_of_mem hy hc)) nofun

section Tree

variable (hs : s.StandsIn t) (hnames : ∀ n ∈ (Node.ofTree t).preorder, '\n' ∉ n.name)

include hs hnames

/-- A path without a line feed leads along names without one. -/
theorem not_mem_namesTo (hpath : '\n' ∉ path) : ∀ x ∈ s.namesTo path, '\n' ∉ x := by
  intro x hx hc
  rcases Path.mem_of_mem_join (Path.mem_of_mem_names hx hc).1 with h | h | h
  · exact absurd h (by decide)
  · rcases hs.mem_path h with h | ⟨m, hm, h⟩
    · exact absurd h (by decide)
    · exact hnames m hm h
  · exact hpath h

/-- A path without a line feed is not blamed with one. -/
theorem not_mem_message_resolve (hpath : '\n' ∉ path) (h : s.resolve path = .error err) :
    '\n' ∉ err.fault.message := by
  have hplain := not_mem_namesTo hs hnames hpath
  have hline : '\n' ∉ Path.ofSegments (s.namesTo path) := by
    intro hc
    rcases Path.mem_ofSegments hc with h | ⟨x, hx, h⟩
    · exact absurd h (by decide)
    · exact hplain x hx h
  rcases resolve_eq_error h with ⟨x, hx, rfl⟩ | ⟨x, hx, rfl⟩
  · rw [mem_message_unknownEntry]
    exact hplain x hx
  · rw [mem_message_notDirectory, not_or]
    refine ⟨?_, hline⟩
    rcases List.mem_cons.mp hx with rfl | hx
    · exact List.not_mem_nil
    · exact hplain x hx

/-- A path that ends in a line feed leads nowhere. -/
theorem resolve_lineFeed_ne_ok : s.resolve (last ++ ['\n']) ≠ .ok n := by
  intro h
  obtain ⟨x, hx, hc⟩ := exists_mem_namesTo s last
  obtain ⟨m, hm, rfl⟩ := (hs.resolve h).2 x hx
  exact hnames m hm hc

end Tree

/-! ## Words that are blamed -/

/-- A command of these words fails on the last one, and its failure quotes it: as the name of the
command, as the path to move to, unless the way there breaks off at a name without a line feed, or
as the token that a query is wrong in. -/
def Blames (s : Shell) (before : List Text) (last : Text) : Prop :=
  before = [] ∨
  (∃ name, before = [name] ∧ Command.named? name = some .changeDirectory ∧
    ∀ x, s.resolve last = .error (.unknownEntry x) → '\n' ∈ x) ∨
  ∃ name order tokens err, before = name :: tokens ∧ Command.named? name = some (.search order) ∧
    Query.parse (tokens ++ [last]) = .error err ∧ err.token = some last

/-- The line fails on a last word that ends in a line feed, and its failure quotes it. -/
def BlamesLineFeed (s : Shell) (line : Text) : Prop :=
  ∃ before last, Words.split line = .ok (before ++ [last]) ∧ last.getLast? = some '\n' ∧
    s.Blames before last

theorem not_blamesLineFeed (h : Words.split line = .ok words) (hwords : ∀ x ∈ words, '\n' ∉ x) :
    ¬ s.BlamesLineFeed line := by
  rintro ⟨before, last, hsplit, hlast, -⟩
  cases h.symm.trans hsplit
  exact hwords last (by simp) (List.mem_of_getLast? hlast)

theorem blamesLineFeed_iff (h : Words.split line = .ok (before ++ [last]))
    (hlast : last.getLast? = some '\n') : s.BlamesLineFeed line ↔ s.Blames before last := by
  constructor
  · rintro ⟨before', last', hsplit, -, hb⟩
    obtain ⟨rfl, hl⟩ := List.append_inj' (Except.ok.inj (h.symm.trans hsplit)) rfl
    cases hl
    exact hb
  · exact fun hb => ⟨before, last, h, hlast, hb⟩

theorem blames_cons {rest : List Text} : s.Blames (name :: rest) last ↔
    (rest = [] ∧ Command.named? name = some .changeDirectory ∧
      ∀ x, s.resolve last = .error (.unknownEntry x) → '\n' ∈ x) ∨
    ∃ order err, Command.named? name = some (.search order) ∧
      Query.parse (rest ++ [last]) = .error err ∧ err.token = some last := by
  constructor
  · rintro (h | ⟨_, h, hname, hr⟩ | ⟨_, order, _, err, h, hname, hp, htoken⟩) <;> cases h
    · exact .inl ⟨rfl, hname, hr⟩
    · exact .inr ⟨order, err, hname, hp, htoken⟩
  · rintro (⟨rfl, hname, hr⟩ | ⟨order, err, hname, hp, htoken⟩)
    · exact .inr (.inl ⟨name, rfl, hname, hr⟩)
    · exact .inr (.inr ⟨name, order, rest, err, rfl, hname, hp, htoken⟩)

/-- The names of commands hold no line feed. -/
theorem not_mem_of_named? {command : Command} (h : Command.named? name = some command) :
    '\n' ∉ name := by
  have hnames : ∀ name ∈ commandNames, '\n' ∉ name := by decide
  exact hnames name (List.mem_map_of_mem (Command.named?_eq_some.mp h))

section Tree

variable (hs : s.StandsIn t) (hnames : ∀ n ∈ (Node.ofTree t).preorder, '\n' ∉ n.name)

include hs hnames

/-- Words without a line feed are not blamed with one. -/
theorem not_mem_message (h : Answers s words s' output (some e)) (hwords : ∀ x ∈ words, '\n' ∉ x) :
    '\n' ∉ e.message := by
  cases h with
  | unknown _ =>
    rw [mem_message_unknownCommand]
    exact hwords _ List.mem_cons_self
  | file _ _ _ =>
    rw [mem_message_file]
    exact hwords _ (List.mem_cons_of_mem _ List.mem_cons_self)
  | nowhere _ hr =>
    have hpath := hwords _ (List.mem_cons_of_mem _ List.mem_cons_self)
    exact not_mem_message_resolve hs hnames hpath hr
  | unread _ hp =>
    intro hc
    obtain ⟨token, htoken, hc⟩ := (Query.mem_message_iff hp).mp hc
    exact hwords token (List.mem_cons_of_mem _ (Query.token_mem_of_parse hp htoken)) hc

/-- A last word with a line feed is blamed with it in three cases. -/
theorem mem_message_iff_blames (h : Answers s (before ++ [last ++ ['\n']]) s' output (some e))
    (hbefore : ∀ x ∈ before, '\n' ∉ x) :
    '\n' ∈ e.message ↔ s.Blames before (last ++ ['\n']) := by
  generalize hwords : before ++ [last ++ ['\n']] = words at h
  cases h with
  | unknown hname =>
    rw [mem_message_unknownCommand]
    rcases before with _ | ⟨b, before⟩ <;> cases hwords
    · exact iff_of_true (by simp) (.inl rfl)
    · refine iff_of_false (hbefore _ List.mem_cons_self) ?_
      simp [blames_cons, hname]
  | file hname hr _ =>
    rw [mem_message_file]
    rcases before with _ | ⟨b, _ | ⟨b', before⟩⟩ <;> cases hwords
    · exact absurd hr (resolve_lineFeed_ne_ok hs hnames)
    · refine iff_of_false (hbefore _ (List.mem_cons_of_mem _ List.mem_cons_self)) ?_
      simp [blames_cons, hname]
  | nowhere hname hr =>
    rcases before with _ | ⟨b, _ | ⟨b', before⟩⟩ <;> cases hwords
    · refine (mem_message_resolve_lineFeed hr).trans ?_
      simp [blames_cons, hname, hr]
    · have hpath := hbefore _ (List.mem_cons_of_mem _ List.mem_cons_self)
      refine iff_of_false (not_mem_message_resolve hs hnames hpath hr) ?_
      simp [blames_cons, hname]
  | @unread _ tokens _ err hname hp =>
    refine (Query.mem_message_iff hp).trans ?_
    rcases before with _ | ⟨b, before⟩ <;> cases hwords
    · exact absurd (by simp) (not_mem_of_named? hname)
    · -- the other tokens hold no line feed
      have hblamed : (∃ token, err.token = some token ∧ '\n' ∈ token) ↔
          err.token = some (last ++ ['\n']) := by
        constructor
        · rintro ⟨token, htoken, hc⟩
          rcases List.mem_append.mp (Query.token_mem_of_parse hp htoken) with h | h
          · exact absurd hc (hbefore _ (List.mem_cons_of_mem _ h))
          · rw [htoken, List.mem_singleton.mp h]
        · intro htoken
          exact ⟨_, htoken, by simp⟩
      have hp : Query.parse (before ++ [last ++ ['\n']]) = .error err := hp
      rw [hblamed]
      simp [blames_cons, hname, hp]

end Tree

/-- **When the text of a failure holds a line feed**: when the line ends in one behind a backslash,
and the failure quotes the word that it ends up in. -/
theorem StandsIn.mem_message_iff (hs : s.StandsIn t)
    (hnames : ∀ n ∈ (Node.ofTree t).preorder, '\n' ∉ n.name) (hl : line.IsLine)
    (hf : (s.executeLine line).failure = some e) : '\n' ∈ e.message ↔ s.BlamesLineFeed line := by
  rcases executeLine_cases s line with ⟨err, hw, hr⟩ | ⟨-, hr⟩ | ⟨name, arguments, hw, hr⟩ <;>
    rw [hr] at hf
  · cases hf
    refine iff_of_false (not_mem_message_words err) ?_
    rintro ⟨before, last, hsplit, -⟩
    cases hw.symm.trans hsplit
  · cases hf
  · have hfits := fits_execute s name arguments
    rw [Reply.Fits, hf] at hfits
    rcases Words.eq_or_exists_of_isLine hl hw with hwords | ⟨before, last, hwords, hbefore, -, -⟩
    · exact iff_of_false (not_mem_message hs hnames hfits hwords) (not_blamesLineFeed hw hwords)
    · rw [hwords] at hw hfits
      rw [blamesLineFeed_iff hw (by simp)]
      exact mem_message_iff_blames hs hnames hfits hbefore

end DirectoryListing.Shell
