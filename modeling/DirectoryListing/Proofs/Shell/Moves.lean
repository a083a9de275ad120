import DirectoryListing.Proofs.Node.Resolution
import DirectoryListing.Shell

/-!
# Moves of a shell

A shell moves along a path of names, and its directory is named by those that have led there. So it
can be moved in two steps or in one: behind the first of two paths, the second leads where both
lead at once, seen from the start.

## Main results

* `Shell.moveTo_congr`: paths that lead to one node move two shells to it, or neither
* `Shell.resolve_join_eq_and_moves`: two paths lead where the joined path leads
-/

namespace DirectoryListing.Shell

variable {s s' : Shell} {p p' a : Text} {cwd : Option Node} {d : Node} {mark : Nat} {t : Tree}

/-- The reply to a move is that of the command which asks for it. -/
theorem execute_move (s : Shell) (p : Text) :
    (s.execute ["cd".toList, p]).failure = (s.moveTo p).failure ∧
      (s.execute ["cd".toList, p]).shell = (s.moveTo p).shell :=
  ⟨rfl, rfl⟩

theorem moveTo_of_resolve (h : s.resolve p = .ok d) (hd : d.isDirectory = true) :
    s.moveTo p = { s with directory := d }.say [] := by
  rw [moveTo, h]
  exact if_pos hd

/-- Paths that lead to one node, or are stopped alike, move two shells with one root to the same
directory, or neither of them. -/
theorem moveTo_congr (hroot : s'.root = s.root) (hrunning : s'.running = s.running)
    (h : s'.resolve p' = s.resolve p) :
    ((s'.moveTo p').failure = none ↔ (s.moveTo p).failure = none) ∧
      ((s.moveTo p).failure = none → (s'.moveTo p').shell = (s.moveTo p).shell) := by
  rw [moveTo, moveTo, h]
  rcases s.resolve p with e | n
  · exact ⟨⟨nofun, nofun⟩, nofun⟩
  · simp only
    split
    · refine ⟨Iff.rfl, fun _ => ?_⟩
      show Shell.mk s'.root n s'.running = ⟨s.root, n, s.running⟩
      rw [hroot, hrunning]
    · exact ⟨⟨nofun, nofun⟩, nofun⟩

/-- **Two paths lead where the joined path leads**: behind a first path that leads to a directory,
a second one leads to the same node as the joined path from the start, or both are stopped by the
same error. So a shell that moves along the first and then along the second ends where the joined
path moves it. -/
theorem resolve_join_eq_and_moves (h : (Node.top mark t).resolve a cwd = .ok d)
    (hd : d.isDirectory = true) (b : Text) :
    (Node.top mark t).resolve (Path.join a b) cwd = (Node.top mark t).resolve b (some d) ∧
      ∀ s : Shell, s.root = .top mark t → cwd = some s.directory →
        let first := s.execute ["cd".toList, a]
        let second := first.shell.execute ["cd".toList, b]
        let joined := s.execute ["cd".toList, Path.join a b]
        first.failure = none ∧ (second.failure = none ↔ joined.failure = none) ∧
          (joined.failure = none → second.shell = joined.shell) := by
  have same := Node.resolve_join h b
  refine ⟨same, fun s hroot hcwd => ?_⟩
  intro first second joined
  rw [hcwd] at h same
  have moved : s.moveTo a = { s with directory := d }.say [] :=
    moveTo_of_resolve (by rw [resolve, hroot, h]) hd
  have shell : first.shell = { s with directory := d } :=
    (execute_move s a).2.trans (congrArg Reply.shell moved)
  have found : first.shell.resolve b = s.resolve (Path.join a b) := by
    rw [shell, resolve, resolve, hroot]
    exact same.symm
  refine ⟨(execute_move s a).1.trans (congrArg Reply.failure moved), ?_⟩
  exact moveTo_congr (by rw [shell]) (by rw [shell]) found

/-- From the inner directory the way leads back over the root, and to the outer one. -/
theorem resolve_join_eq_and_moves_shelf :
    ∃ d, (Node.ofTree Node.shelf).resolve "x/.././a//b/".toList (some (.ofTree Node.shelf)) = .ok d ∧
      d.isDirectory = true ∧
      let first := (atRoot Node.shelf).execute ["cd".toList, "x/.././a//b/".toList]
      let second := first.shell.execute ["cd".toList, "../../../a".toList]
      let joined := (atRoot Node.shelf).execute ["cd".toList, "x/.././a//b/../../../a".toList]
      joined.failure = none ∧ second.failure = none ∧ second.shell = joined.shell := by
  obtain ⟨d, found, hd⟩ : ∃ d, (Node.top 0 Node.shelf).resolve "x/.././a//b/".toList
      (some (.ofTree Node.shelf)) = .ok d ∧ d.isDirectory = true := ⟨_, rfl, rfl⟩
  have joined : ((atRoot Node.shelf).execute
      ["cd".toList, "x/.././a//b/../../../a".toList]).failure = none := rfl
  obtain ⟨-, hfailure, hshell⟩ :=
    (resolve_join_eq_and_moves found hd "../../../a".toList).2 (atRoot Node.shelf) rfl rfl
  exact ⟨d, found, hd, joined, hfailure.mpr joined, hshell joined⟩

end DirectoryListing.Shell
