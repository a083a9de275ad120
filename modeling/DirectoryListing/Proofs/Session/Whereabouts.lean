import DirectoryListing.Proofs.Listing.Places
import DirectoryListing.Proofs.Node.Named
import DirectoryListing.Proofs.Session.Steps

/-!
# Where a session stands

A shell gets nowhere but along names: the path that it is asked to move to is made names, and these
lead to a directory. So the directory that it stands in can be named, whatever the names in the tree
are: the path that it prints leads back to the directory, although another directory of the tree may
have the same path.

## Main definitions

* `Shell.StandsNamed t s`: the shell stands in a directory that is found by its names
* `Shell.after s commands`: the shell after some commands
* `Shell.IsNameable t s`: the directory of the shell can be named

## Main results

* `Shell.StandsNamed.execute`: whatever a shell is asked, its directory is found by its names
* `Session.isNameable_of_parse`: where a session stands can be named all along
-/

namespace DirectoryListing

namespace Shell

variable {s s' : Shell} {t : Tree} {words : List Text} {output : Text} {failure : Option Failure}

/-! ## Named directories -/

/-- The shell stands in a directory of a tree, which its names lead to from the root. -/
structure StandsNamed (t : Tree) (s : Shell) : Prop extends StandsIn t s where
  isDirectory : s.directory.isDirectory = true
  isNamed : (Node.ofTree t).IsNamed s.directory

theorem standsNamed_atRoot (ht : t.kind = .directory) : (atRoot t).StandsNamed t where
  toStandsIn := standsIn_atRoot t
  isDirectory := decide_eq_true ht
  isNamed := Node.isNamed_ofTree t

theorem StandsNamed.of_answers (h : s.StandsNamed t) (ha : Answers s words s' output failure) :
    s'.StandsNamed t := by
  have stands : s'.StandsIn t := h.toStandsIn.of_answers ha
  cases ha with
  | quit _ => exact ⟨stands, h.isDirectory, h.isNamed⟩
  | move _ hn hd =>
    rw [resolve, h.root] at hn
    exact ⟨stands, hd, Node.isNamed_of_resolve hn⟩
  | _ => exact h

/-- **Whatever a shell is asked**, its directory is found by its names. -/
theorem StandsNamed.execute (h : s.StandsNamed t) (words : List Text) :
    (s.execute words).shell.StandsNamed t := by
  cases words with
  | nil => exact h
  | cons name arguments => exact h.of_answers (fits_execute s name arguments)

theorem StandsNamed.executeLine (h : s.StandsNamed t) (line : Text) :
    (s.executeLine line).shell.StandsNamed t := by
  rcases executeLine_cases s line with ⟨_, -, hr⟩ | ⟨-, hr⟩ | ⟨name, arguments, -, hr⟩ <;> rw [hr]
  · exact h
  · exact h
  · exact h.execute _

/-! ## Commands -/

/-- The shell after some commands, each of them given by its words. -/
def after (s : Shell) (commands : List (List Text)) : Shell :=
  commands.foldl (fun s words => (s.execute words).shell) s

theorem StandsNamed.after (h : s.StandsNamed t) (commands : List (List Text)) :
    (s.after commands).StandsNamed t := by
  induction commands generalizing s with
  | nil => exact h
  | cons words commands ih => exact ih (h.execute words)

/-- **The directory of the shell can be named**: it is the root, or found below the root by its path
less the first slash; and to move to the path that is printed for it changes nothing. -/
structure IsNameable (t : Tree) (s : Shell) : Prop where
  below : s.directory ∈ (Node.ofTree t).preorder
  isDirectory : s.directory.isDirectory = true
  descend : s.directory = .ofTree t ∨
    ∃ p, s.directory.path = '/' :: p ∧ (Node.ofTree t).descend p = .ok s.directory
  move : ∃ p, (s.execute ["pwd".toList]).output = asLine p ∧
    (s.execute ["pwd".toList]).failure = none ∧
    (s.execute ["cd".toList, p]).failure = none ∧ (s.execute ["cd".toList, p]).shell = s

/-- To move to the path of a named directory leaves the shell there. -/
theorem StandsNamed.moveTo (h : s.StandsNamed t) : s.moveTo s.directory.path = s.say [] := by
  have found : s.resolve s.directory.path = .ok s.directory := by
    rw [Shell.resolve, h.root]
    exact h.isNamed.resolve_path _
  unfold Shell.moveTo
  rw [found]
  exact if_pos h.isDirectory

theorem StandsNamed.isNameable (h : s.StandsNamed t) : s.IsNameable t where
  below := h.directory
  isDirectory := h.isDirectory
  descend := h.isNamed.descend_eq
  move := by
    have moved : s.obey .changeDirectory [s.directory.path] = s.say [] := h.moveTo
    refine ⟨s.directory.path, rfl, rfl, ?_, ?_⟩
    · exact congrArg Reply.failure moved
    · exact congrArg Reply.shell moved

end Shell

namespace Session

open Shell

variable {strict : Bool} {lines : List Text} {t : Tree}

/-- **Where a session stands can be named**, after any commands, and all along a session over any
input. -/
theorem isNameable_of_parse (h : (Listing.parse strict lines).result = .ok t) :
    (∀ commands, ((atRoot t).after commands).IsNameable t) ∧
      ∀ options input, (run (atRoot t) options input).shell.IsNameable t ∧
        ∀ p ∈ steps (input.reader options) (atRoot t) input.script, p.1.IsNameable t := by
  obtain ⟨ts, rfl⟩ := Listing.exists_eq_directory_of_parse h
  have start := standsNamed_atRoot (t := .directory .root ts) rfl
  have kept : ∀ (s : Shell) (line : Text), s.StandsNamed (.directory .root ts) →
      (s.executeLine line).shell.StandsNamed (.directory .root ts) :=
    fun s line hs => hs.executeLine line
  refine ⟨fun commands => (start.after commands).isNameable, fun options input => ⟨?_, ?_⟩⟩
  · exact (shell_obeyAll start kept).isNameable
  · exact fun p hp => (forall_mem_steps start kept p hp).isNameable

/-- A listing with two directories of one name, the second of which has a file, and with directories
that stand for no name. -/
def misleading : List Text :=
  [".:".toList, "total 0".toList, "drwxr-xr-x 2 u g 0 Jan 1 00:00 a".toList,
    "drwxr-xr-x 2 u g 0 Jan 1 00:00 a".toList, "drwxr-xr-x 2 u g 0 Jan 1 00:00 ..".toList,
    "drwxr-xr-x 2 u g 0 Jan 1 00:00 a/b".toList, [], "./a:".toList, "total 0".toList,
    "-rw-r--r-- 1 u g 1 Jan 1 00:00 f".toList]

/-- Its tree. -/
def misleadingTree : Tree := .directory .root [
  .directory ⟨"drwxr-xr-x 2 u g 0 Jan 1 00:00 a".toList, ['a'], 0⟩ [],
  .directory ⟨"drwxr-xr-x 2 u g 0 Jan 1 00:00 a".toList, ['a'], 0⟩
    [.file ⟨"-rw-r--r-- 1 u g 1 Jan 1 00:00 f".toList, ['f'], 1⟩],
  .directory ⟨"drwxr-xr-x 2 u g 0 Jan 1 00:00 ..".toList, ['.', '.'], 0⟩ [],
  .directory ⟨"drwxr-xr-x 2 u g 0 Jan 1 00:00 a/b".toList, ['a', '/', 'b'], 0⟩ []]

theorem isNameable_of_parse_misleading :
    (Listing.parse true misleading).result = .ok misleadingTree ∧
      ((atRoot misleadingTree).after
        [["cd".toList, "a/f".toList], ["cd".toList, "./a/../a".toList]]).IsNameable misleadingTree :=
  have read : (Listing.parse true misleading).result = .ok misleadingTree :=
    Listing.eq_ok_of_toOption (by decide +kernel)
  ⟨read, (isNameable_of_parse read).1 _⟩

end Session

end DirectoryListing
