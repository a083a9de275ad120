import DirectoryListing.Proofs.Node.Named

/-!
# Where paths lead

A path is resolved by its text: it is joined to the path of a directory, made names, and these are
followed from the root. As long as the names of the directory stand for themselves, its path is no
more than these names in writing; so the path can be read segment by segment, from the names of the
directory on, and no text comes in. And a node that a path has led to is named by the very names
that have led there, so a second path from there leads where both lead at once.

## Main definitions

* `Node.IsFirstChild n x c`: the first child with a name
* `Node.LeadsTo p n names r`: what comes of following names from child to child

## Main results

* `Node.leadsTo_iff`: names are followed as their relation says
* `Node.resolve_join`: two paths lead where the joined path leads
* `Node.resolve_eq_iff_leadsTo`: a path is followed segment by segment
-/

namespace DirectoryListing.Node

variable {n c d : Node} {a p last x : Text} {xs : List Text} {cwd : Option Node}
  {r : Except StepError Node} {e : StepError} {mark : Nat} {t : Tree}

/-! ## Following names -/

/-- The node `c` is the first child with the given name. -/
def IsFirstChild (n : Node) (x : Text) (c : Node) : Prop :=
  ∃ before after, n.children = before ++ c :: after ∧ c.name = x ∧ ∀ b ∈ before, b.name ≠ x

/-- What comes of following names from a node downwards: each leads from a directory to the first
child with this name. A name that no child has is told, and so is a file where a name is left, with
the path `p` that all the names make. -/
inductive LeadsTo (p : Text) : Node → List Text → Except StepError Node → Prop
  | arrived (n : Node) : LeadsTo p n [] (.ok n)
  | entered {n c : Node} {x : Text} {xs : List Text} {r : Except StepError Node} :
    n.isDirectory = true → n.IsFirstChild x c → LeadsTo p c xs r → LeadsTo p n (x :: xs) r
  | missing {n : Node} {x : Text} {xs : List Text} :
    n.isDirectory = true → (∀ c ∈ n.children, c.name ≠ x) →
      LeadsTo p n (x :: xs) (.error (.unknownEntry x))
  | blocked {n : Node} {x : Text} {xs : List Text} :
    n.isDirectory = false → LeadsTo p n (x :: xs) (.error (.notDirectory n.name p))

theorem child_eq_ok_iff : n.child x = .ok c ↔ n.IsFirstChild x c := by
  have found : n.child x = .ok c ↔ n.children.find? (·.name = x) = some c := by
    unfold child
    split
    · next c' hc => rw [hc, Except.ok.injEq, Option.some.injEq]
    · next hc => simp [hc]
  rw [found, List.find?_eq_some_iff_append, IsFirstChild]
  simp only [decide_eq_true_eq, Bool.not_eq_true', decide_eq_false_iff_not]
  constructor
  · rintro ⟨hx, before, after, h, hbefore⟩
    exact ⟨before, after, h, hx, hbefore⟩
  · rintro ⟨before, after, h, hx, hbefore⟩
    exact ⟨hx, before, after, h, hbefore⟩

theorem child_eq_error_iff :
    n.child x = .error e ↔ (∀ c ∈ n.children, c.name ≠ x) ∧ e = .unknownEntry x := by
  constructor
  · intro h
    refine ⟨fun c hc hx => ?_, child_eq_error h⟩
    obtain ⟨c', hc'⟩ : ∃ c', n.children.find? (·.name = x) = some c' :=
      Option.isSome_iff_exists.mp (List.find?_isSome.mpr ⟨c, hc, by simpa using hx⟩)
    rw [child, hc'] at h
    cases h
  · rintro ⟨h, rfl⟩
    have none : n.children.find? (·.name = x) = none :=
      List.find?_eq_none.mpr fun c hc => by simpa using h c hc
    rw [child, none]

/-- **Names are followed** from a directory, or from a file that the name `last` has led to, as
`LeadsTo` says. -/
theorem leadsTo_iff (h : n.isDirectory = true ∨ last = n.name) :
    LeadsTo p n xs r ↔ walk p last n xs = r := by
  constructor
  · intro hl
    induction hl generalizing last with
    | arrived n => rfl
    | entered hd hc _ ih =>
      rw [walk, if_pos hd, child_eq_ok_iff.mpr hc]
      exact ih (.inr hc.choose_spec.choose_spec.2.1.symm)
    | missing hd hx => rw [walk, if_pos hd, child_eq_error_iff.mpr ⟨hx, rfl⟩]
    | blocked hd =>
      obtain rfl := h.resolve_left (by simp [hd])
      rw [walk, if_neg (by simp [hd])]
  · rintro rfl
    induction xs generalizing n last with
    | nil => exact .arrived n
    | cons x xs ih =>
      rw [walk]
      split
      · next hd =>
        split
        · next c hc => exact .entered hd (child_eq_ok_iff.mp hc) (ih (.inr (child_eq_ok hc).2.symm))
        · next e hc =>
          obtain ⟨hx, rfl⟩ := child_eq_error_iff.mp hc
          exact .missing hd hx
      · next hd =>
        obtain rfl := h.resolve_left hd
        exact .blocked (Bool.not_eq_true _ ▸ hd)

/-! ## Paths -/

/-- **Two paths lead where the joined path leads**, or are stopped where it is. -/
theorem resolve_join (h : (top mark t).resolve a cwd = .ok d) (b : Text) :
    (top mark t).resolve (Path.join a b) cwd = (top mark t).resolve b (some d) := by
  have here : Path.names d.path = Path.names (Path.join ((cwd.map path).getD Path.root) a) :=
    (names_path (isNamed_of_resolve h).names).trans (names_of_resolve h)
  have same : Path.names (Path.join ((cwd.map path).getD Path.root) (Path.join a b)) =
      Path.names (Path.join d.path b) := by
    rw [Path.names_join, Path.along_join, ← Path.names_join, ← here, ← Path.names_join]
  rw [resolve_eq, resolve_eq, same, Option.map_some, Option.getD_some]

/-- **A path is followed segment by segment**: from the names of the directory that it is seen from,
or from the root if it is absolute, empty segments and single dots stay, two dots go back by one
name, and any other segment is the next name. The names are then followed from the root. -/
theorem resolve_eq_iff_leadsTo (ht : t.kind = .directory)
    (hcwd : ∀ c ∈ cwd, ∀ x ∈ c.names, Path.IsName x) (p : Text) (r : Except StepError Node) :
    let names := Path.along ((cwd.map Node.names).getD []) p
    (top mark t).resolve p cwd = r ↔ LeadsTo (Path.ofSegments names) (top mark t) names r := by
  intro names
  have start : Path.names ((cwd.map path).getD Path.root) = (cwd.map Node.names).getD [] := by
    cases cwd with
    | none => rfl
    | some c => exact names_path (hcwd c rfl)
  have root : (top mark t).isDirectory = true := decide_eq_true ht
  rw [resolve_eq, Path.names_join, start, leadsTo_iff (.inl root)]

/-- A tree of a directory that holds a file and another directory. -/
def shelf : Tree := .directory .root [
  .directory ⟨[], ['a'], 0⟩ [.file ⟨[], ['f'], 1⟩, .directory ⟨[], ['b'], 0⟩ []]]

/-- From the inner directory, the way back over the outer one is stopped at the file there. -/
theorem resolve_eq_iff_leadsTo_shelf : ∃ c, (ofTree shelf).follow [0, 1] = some c ∧
    (∀ x ∈ c.names, Path.IsName x) ∧
    (ofTree shelf).resolve ".././/f/x".toList (some c) =
      .error (.notDirectory ['f'] "a/f/x".toList) := by
  obtain ⟨c, hc, names⟩ : ∃ c, (ofTree shelf).follow [0, 1] = some c ∧ c.names = [['a'], ['b']] :=
    ⟨_, rfl, rfl⟩
  have plain : ∀ x ∈ c.names, Path.IsName x := by
    have parts : ∀ x ∈ [['a'], ['b']], x ≠ [] ∧ '/' ∉ x ∧ x ≠ ['.'] ∧ x ≠ ['.', '.'] := by decide
    rw [names]
    intro x hx
    obtain ⟨hne, hslash, hdot, hdots⟩ := parts x hx
    exact ⟨⟨hne, hslash⟩, hdot, hdots⟩
  have further : Path.along [['a'], ['b']] ".././/f/x".toList = [['a'], ['f'], ['x']] := by decide
  refine ⟨c, hc, plain, (resolve_eq_iff_leadsTo rfl (by rintro _ ⟨⟩; exact plain) _ _).mpr ?_⟩
  rw [Option.map_some, Option.getD_some, names, further]
  exact .entered rfl ⟨[], [], rfl, rfl, nofun⟩
    (.entered rfl ⟨[], [_], rfl, rfl, nofun⟩ (.blocked rfl))

end DirectoryListing.Node
