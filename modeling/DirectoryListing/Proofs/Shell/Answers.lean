import DirectoryListing.Proofs.Query.Errors
import DirectoryListing.Proofs.Search.Paths
import DirectoryListing.Shell

/-!
# The answers of a shell

A command comes to one of ten answers, and all that is shown of a shell rests on their list. A
search has two of them only: once its query is read, it runs to its end. An answer that is a failure
has no output, and leaves the shell that was asked. And a shell that stands in a tree stays in the
tree.

## Main definitions

* `Shell.Answers s words s' output failure`: what words come to as a command
* `Shell.StandsIn t s`: the shell has the root of a tree, and stands at or below it

## Main results

* `Shell.fits_execute`: each command comes to one of these answers
* `Shell.executeLine_of_failure`: a line that fails prints nothing and changes nothing
* `Shell.StandsIn.executeLine`: whatever a shell is asked, it stays in its tree
-/

namespace DirectoryListing.Shell

variable {s s' : Shell} {t : Tree} {n : Node} {name path line output : Text}
  {words : List Text} {command : Command} {failure : Option Failure} {e : Failure}

/-! ## Commands -/

/-- The name of a command stands in the table, and there in one place. -/
theorem Command.named?_eq_some : Command.named? name = some command ↔ (name, command) ∈ table := by
  constructor
  · intro h
    obtain ⟨before, after, htable, -⟩ := List.lookup_eq_some_iff.mp h
    rw [htable]
    exact List.mem_append_right before List.mem_cons_self
  · intro h
    have found : ∀ p ∈ table, Command.named? p.1 = some p.2 := by decide
    exact found _ h

/-- What words come to as a command: the shell after it, what it prints, and why it fails, if it
does. -/
inductive Answers (s : Shell) : List Text → Shell → Text → Option Failure → Prop
  | unknown {name : Text} {arguments : List Text} : Command.named? name = none →
    Answers s (name :: arguments) s [] (some (.unknownCommand name))
  | quit {name : Text} {arguments : List Text} : Command.named? name = some .quit →
    Answers s (name :: arguments) { s with running := false } [] none
  | place {name : Text} {arguments : List Text} : Command.named? name = some .printDirectory →
    Answers s (name :: arguments) s (asLine s.directory.path) none
  | stay {name : Text} : Command.named? name = some .changeDirectory → Answers s [name] s [] none
  | move {name path : Text} {rest : List Text} {n : Node} :
    Command.named? name = some .changeDirectory → s.resolve path = .ok n → n.isDirectory = true →
      Answers s (name :: path :: rest) { s with directory := n } [] none
  | file {name path : Text} {rest : List Text} {n : Node} :
    Command.named? name = some .changeDirectory → s.resolve path = .ok n → n.isDirectory = false →
      Answers s (name :: path :: rest) s [] (some (.notDirectory path))
  | nowhere {name path : Text} {rest : List Text} {e : Node.StepError} :
    Command.named? name = some .changeDirectory → s.resolve path = .error e →
      Answers s (name :: path :: rest) s [] (some (.step e))
  | children {name : Text} {arguments : List Text} : Command.named? name = some .list →
    Answers s (name :: arguments) s (s.directory.children.flatMap fun n => asLine n.entry.line) none
  | unread {name : Text} {tokens : List Text} {order : Strategy} {e : Query.Error} :
    Command.named? name = some (.search order) → Query.parse tokens = .error e →
      Answers s (name :: tokens) s [] (some (.query e))
  | finds {name : Text} {tokens : List Text} {order : Strategy} {e : Expr} :
    Command.named? name = some (.search order) → Query.parse tokens = .ok e →
      Answers s (name :: tokens) s
        (Search.printed ((Search.new e (.empty order)).paths s.directory).found) none

/-- The answer is one that the command can have. -/
def Reply.Fits (s : Shell) (words : List Text) (r : Reply) : Prop :=
  Answers s words r.shell r.output r.failure

theorem fits_moveTo (hname : Command.named? name = some .changeDirectory) (path : Text)
    (rest : List Text) : (s.moveTo path).Fits s (name :: path :: rest) := by
  unfold moveTo
  split
  · next he => exact .nowhere hname he
  · next n hn =>
    split
    · next hd => exact .move hname hn hd
    · next hd => exact .file hname hn (Bool.not_eq_true _ ▸ hd)

theorem fits_runSearch {order : Strategy} (hname : Command.named? name = some (.search order))
    (tokens : List Text) : (s.runSearch order tokens).Fits s (name :: tokens) := by
  unfold runSearch
  split
  · next he => exact .unread hname he
  · next e he =>
    show Answers s _ s (Search.printed _) (Option.map _ _)
    rw [Search.failure_paths (Query.isPure_of_parse he)]
    exact .finds hname he

theorem fits_obey (hname : Command.named? name = some command) (arguments : List Text) :
    (s.obey command arguments).Fits s (name :: arguments) := by
  cases command with
  | quit => exact .quit hname
  | printDirectory => exact .place hname
  | changeDirectory =>
    cases arguments with
    | nil => exact .stay hname
    | cons path rest => exact fits_moveTo hname path rest
  | list => exact .children hname
  | search order => exact fits_runSearch hname arguments

/-- **Each command** comes to one of the answers. -/
theorem fits_execute (s : Shell) (name : Text) (arguments : List Text) :
    (s.execute (name :: arguments)).Fits s (name :: arguments) := by
  rw [execute]
  split
  · next hname => exact .unknown hname
  · next hname => exact fits_obey hname arguments

/-! ## Lines -/

/-- **A line** is not cut into words, or has none, or its words are a command. -/
theorem executeLine_cases (s : Shell) (line : Text) :
    (∃ e, Words.split line = .error e ∧ s.executeLine line = s.fail (.words e)) ∨
      (Words.split line = .ok [] ∧ s.executeLine line = s.say []) ∨
      ∃ name arguments, Words.split line = .ok (name :: arguments) ∧
        s.executeLine line = s.execute (name :: arguments) := by
  unfold executeLine
  split
  · next e h => exact .inl ⟨e, h, rfl⟩
  · next h => exact .inr (.inl ⟨h, rfl⟩)
  · next words hne h =>
    rcases words with _ | ⟨name, arguments⟩
    · exact (hne rfl).elim
    · exact .inr (.inr ⟨name, arguments, h, rfl⟩)

theorem Answers.of_failure (h : Answers s words s' output (some e)) : output = [] ∧ s' = s := by
  cases h <;> exact ⟨rfl, rfl⟩

/-- **A line that fails** prints nothing and changes nothing. -/
theorem executeLine_of_failure (h : (s.executeLine line).failure = some e) :
    (s.executeLine line).output = [] ∧ (s.executeLine line).shell = s := by
  rcases executeLine_cases s line with ⟨_, -, hr⟩ | ⟨-, hr⟩ | ⟨name, arguments, -, hr⟩ <;>
    rw [hr] at h ⊢
  · exact ⟨rfl, rfl⟩
  · exact ⟨rfl, rfl⟩
  · have hfits := fits_execute s name arguments
    rw [Reply.Fits, h] at hfits
    exact hfits.of_failure

/-! ## Where a shell stands -/

/-- The shell has the root of a tree, and stands at or below it. -/
structure StandsIn (t : Tree) (s : Shell) : Prop where
  root : s.root = .ofTree t
  directory : s.directory ∈ (Node.ofTree t).preorder

theorem standsIn_atRoot (t : Tree) : (atRoot t).StandsIn t :=
  ⟨rfl, Node.mem_preorder_self _⟩

/-- The names that lead from the root to where a path leads, seen from the shell. -/
def namesTo (s : Shell) (path : Text) : List Text :=
  Path.names (Path.join s.directory.path path)

theorem resolve_eq (s : Shell) (path : Text) :
    s.resolve path = Node.walk (Path.ofSegments (s.namesTo path)) [] s.root (s.namesTo path) :=
  Node.resolve_eq s.root path (some s.directory)

/-- A path leads to a node of the tree, along names of nodes of the tree. -/
theorem StandsIn.resolve (h : s.StandsIn t) (hn : s.resolve path = .ok n) :
    n ∈ (Node.ofTree t).preorder ∧ (Node.ofTree t).NamedIn (s.namesTo path) := by
  rw [resolve_eq, h.root] at hn
  exact Node.walk_eq_ok hn

theorem StandsIn.of_answers (h : s.StandsIn t) (ha : Answers s words s' output failure) :
    s'.StandsIn t := by
  cases ha with
  | quit _ => exact ⟨h.root, h.directory⟩
  | move _ hn _ => exact ⟨h.root, (h.resolve hn).1⟩
  | _ => exact h

/-- **Whatever a shell is asked**, it stays in its tree. -/
theorem StandsIn.executeLine (h : s.StandsIn t) (line : Text) :
    (s.executeLine line).shell.StandsIn t := by
  rcases executeLine_cases s line with ⟨_, -, hr⟩ | ⟨-, hr⟩ | ⟨name, arguments, -, hr⟩ <;> rw [hr]
  · exact h
  · exact h
  · exact h.of_answers (fits_execute s name arguments)

/-- The path of the directory that a shell stands in is made of slashes and names. -/
theorem StandsIn.mem_path (h : s.StandsIn t) {c : Char} (hc : c ∈ s.directory.path) :
    c = '/' ∨ ∃ m ∈ (Node.ofTree t).preorder, c ∈ m.name := by
  refine (Node.mem_path hc).imp_right ?_
  rintro ⟨x, hx, hcx⟩
  obtain ⟨m, hm, rfl⟩ := Node.namedIn_namesUpward h.directory x hx
  exact ⟨m, hm, hcx⟩

end DirectoryListing.Shell
