import DirectoryListing.Tree

/-!
# Addresses in a tree

A block of a listing changes the tree in one place, the address of its directory. What stands at an
address before and after such a change is settled here.

## Main definitions

* `Tree.at?`: the tree at an address
* `Tree.face`: what a tree says of its top and of the children there
* `Tree.width?`: how many children stand at an address
* `Tree.namesTo`: the names on the way to an address

## Main results

* `Tree.ext_said`: a tree is what is said of each of its places
* `Tree.graft_graft`: changing a tree below what was just put in
* `Tree.at?_graft_of_not_prefix`: a change elsewhere leaves a place as it is
* `Tree.face_graft_of_not_prefix`: only the change at a place itself changes what is said there
-/

namespace DirectoryListing.Tree

/-! ## What stands at an address -/

/-- The tree at an address. -/
def at? : Address → Tree → Option Tree
  | [], t => some t
  | i :: address, t => t.children[i]?.bind (at? address)

/-- The number of children of the tree at an address. -/
def width? (t : Tree) (address : Address) : Option Nat :=
  (t.at? address).map (·.children.length)

/-- What the listing says of the top of a tree. -/
def said (t : Tree) : Kind × Entry := (t.kind, t.entry)

/-- What the listing says of the top of a tree, and of each of the children there. -/
def face (t : Tree) : (Kind × Entry) × List (Kind × Entry) := (t.said, t.children.map said)

/-- The names on the way to an address, that of the top left out. -/
def namesTo : Address → Tree → List Text
  | [], _ => []
  | i :: address, t =>
    match t.children[i]? with
    | some c => c.name :: c.namesTo address
    | none => []

@[simp] theorem at?_nil (t : Tree) : t.at? [] = some t := rfl

theorem at?_cons (t : Tree) (i : Nat) (address : Address) :
    t.at? (i :: address) = t.children[i]?.bind (at? address) := rfl

theorem at?_append (t : Tree) (a b : Address) :
    t.at? (a ++ b) = (t.at? a).bind (at? b) := by
  induction a generalizing t with
  | nil => rfl
  | cons i a ih =>
    rw [List.cons_append, at?_cons, at?_cons]
    rcases t.children[i]? with _ | s
    · rfl
    · exact ih s

/-- Below a directory without children there is nothing. -/
theorem at?_append_of_empty {t : Tree} {a : Address} {e : Entry}
    (h : t.at? a = some (directory e [])) (i : Nat) (b : Address) : t.at? (a ++ i :: b) = none := by
  simp [at?_append, h, at?_cons, children]

/-- Below a file there is nothing. -/
theorem at?_append_of_file {t : Tree} {a : Address} {e : Entry} (h : t.at? a = some (file e))
    (i : Nat) (b : Address) : t.at? (a ++ i :: b) = none := by
  simp [at?_append, h, at?_cons, children]

/-- What is said of the children of a directory, by their positions. -/
theorem said_at?_concat {t : Tree} {a : Address} {e : Entry} {ts : List Tree}
    (h : t.at? a = some (directory e ts)) (j : Nat) :
    (t.at? (a ++ [j])).map said = (ts.map said)[j]? := by
  rw [at?_append, h, List.getElem?_map]
  exact congrArg (Option.map said) (Option.bind_fun_some _)

/-- **A tree is what is said of each of its places.** -/
theorem ext_said {t u : Tree} (h : ∀ a, (t.at? a).map said = (u.at? a).map said) : t = u := by
  induction hm : sizeOf t using Nat.strongRecOn generalizing t u with
  | _ m ih =>
  subst hm
  have top : t.said = u.said := Option.some.inj (h [])
  cases t with
  | file e =>
    cases u with
    | file e' => exact congrArg (file ·.2) top
    | directory => cases top
  | directory e ts =>
    cases u with
    | file => cases top
    | directory e' us =>
      have children : ts = us := by
        refine List.ext_getElem? fun j => ?_
        have below : ∀ a, (ts[j]?.bind (at? a)).map said = (us[j]?.bind (at? a)).map said :=
          fun a => h (j :: a)
        rcases ht : ts[j]? with _ | s <;> rcases hu : us[j]? with _ | s' <;>
          simp only [ht, hu] at below
        · rfl
        · cases below []
        · cases below []
        · have smaller : sizeOf s < sizeOf (directory e ts) := by
            have := List.sizeOf_lt_of_mem (List.mem_of_getElem? ht)
            simp only [directory.sizeOf_spec]
            omega
          exact congrArg some (ih _ smaller below rfl)
      rw [children, show e = e' from congrArg (·.2) top]

/-! ## Changes -/

theorem children_graft_cons (i : Nat) (a : Address) (kids : List Tree) (t : Tree) :
    (t.graft (i :: a) kids).children = t.children.modify i (graft a kids) := by
  cases t with
  | file e => rw [graft, children, List.modify_nil]
  | directory e ts => rfl

/-- The children of the directory at the address of a change are those put in. -/
theorem at?_graft_self {t : Tree} {a : Address} {e : Entry} {ts : List Tree}
    (h : t.at? a = some (directory e ts)) (kids : List Tree) :
    (t.graft a kids).at? a = some (directory e kids) := by
  induction a generalizing t with
  | nil =>
    cases h
    rfl
  | cons i a ih =>
    obtain ⟨s, hs, hd⟩ := Option.bind_eq_some_iff.mp h
    rw [at?_cons, children_graft_cons, List.getElem?_modify_eq, hs]
    exact ih hd

/-- Putting in what a directory holds already changes nothing. -/
theorem graft_eq_self {t : Tree} {a : Address} {e : Entry} {kids : List Tree}
    (h : t.at? a = some (directory e kids)) : t.graft a kids = t := by
  induction a generalizing t with
  | nil =>
    cases h
    rfl
  | cons i a ih =>
    obtain ⟨s, hs, hd⟩ := Option.bind_eq_some_iff.mp h
    cases t with
    | file e => rfl
    | directory e' ts =>
      refine congrArg (directory e') (List.ext_getElem? fun j => ?_)
      rw [List.getElem?_modify]
      by_cases hj : i = j
      · subst hj
        have hs : ts[i]? = some s := hs
        simp [hs, ih hd]
      · simp [hj]

/-- **Changing a tree below what was just put in** is putting in what has been changed. -/
theorem graft_graft (t : Tree) (a : Address) (i : Nat) (b : Address) (kids grandkids : List Tree) :
    (t.graft a kids).graft (a ++ i :: b) grandkids =
      t.graft a (kids.modify i (graft b grandkids)) := by
  induction a generalizing t with
  | nil => cases t <;> rfl
  | cons j a ih =>
    cases t with
    | file e => rfl
    | directory e ts =>
      refine congrArg (directory e) ?_
      rw [List.modify_modify_eq]
      exact congrArg (ts.modify j) (funext ih)

/-- A change leaves every place alone that lies neither above nor below it. -/
theorem at?_graft_of_not_prefix {t : Tree} {a b : Address} {kids : List Tree} (hab : ¬ a <+: b)
    (hba : ¬ b <+: a) : (t.graft a kids).at? b = t.at? b := by
  -- down to where the two addresses part
  induction a generalizing t b with
  | nil => exact absurd List.nil_prefix hab
  | cons i a ih =>
    rcases b with _ | ⟨j, b⟩
    · exact absurd List.nil_prefix hba
    rw [at?_cons, at?_cons, children_graft_cons, List.getElem?_modify]
    by_cases hij : i = j
    · subst hij
      have hab : ¬ a <+: b := fun h => hab (List.cons_prefix_cons.mpr ⟨rfl, h⟩)
      have hba : ¬ b <+: a := fun h => hba (List.cons_prefix_cons.mpr ⟨rfl, h⟩)
      rcases t.children[i]? with _ | s
      · simp
      · simpa using ih (t := s) hab hba
    · simp [hij]

theorem said_graft (t : Tree) (a : Address) (kids : List Tree) :
    (t.graft a kids).said = t.said := by
  cases t <;> cases a <;> rfl

/-- **Only a change at a place itself**, or at one above it, changes what is said there. -/
theorem face_graft_of_not_prefix {t : Tree} {a b : Address} {kids : List Tree} (hab : ¬ a <+: b) :
    ((t.graft a kids).at? b).map face = (t.at? b).map face := by
  induction a generalizing t b with
  | nil => exact absurd List.nil_prefix hab
  | cons i a ih =>
    rcases b with _ | ⟨j, b⟩
    -- above the change a child is replaced by one of which the same is said
    · have children : (t.children.modify i (graft a kids)).map said = t.children.map said := by
        apply List.ext_getElem?
        intro j
        rw [List.getElem?_map, List.getElem?_map, List.getElem?_modify]
        split <;> cases t.children[j]? <;> simp [said_graft]
      simp [face, children_graft_cons, said_graft, children]
    rw [at?_cons, at?_cons, children_graft_cons, List.getElem?_modify]
    by_cases hij : i = j
    · subst hij
      have hab : ¬ a <+: b := fun h => hab (List.cons_prefix_cons.mpr ⟨rfl, h⟩)
      rcases t.children[i]? with _ | s
      · simp
      · simpa using ih (t := s) hab
    · simp [hij]

theorem width?_eq (t : Tree) (address : Address) :
    t.width? address = ((t.at? address).map face).map (·.2.length) := by
  rw [width?, Option.map_map]
  congr 1
  funext u
  simp [face]

/-- Only a change at a place itself, or at one above it, changes how many children stand there. -/
theorem width?_graft_of_not_prefix {t : Tree} {a b : Address} {kids : List Tree}
    (hab : ¬ a <+: b) : (t.graft a kids).width? b = t.width? b := by
  rw [width?_eq, width?_eq, face_graft_of_not_prefix hab]

/-! ## Ways -/

theorem namesTo_append {t u : Tree} {a : Address} (h : t.at? a = some u) (b : Address) :
    t.namesTo (a ++ b) = t.namesTo a ++ u.namesTo b := by
  induction a generalizing t with
  | nil =>
    cases h
    rfl
  | cons i a ih =>
    obtain ⟨s, hs, hu⟩ := Option.bind_eq_some_iff.mp h
    simp only [List.cons_append, namesTo, hs, ih hu]

theorem namesTo_concat {t u : Tree} {a : Address} {j : Nat} (h : t.at? (a ++ [j]) = some u) :
    t.namesTo (a ++ [j]) = t.namesTo a ++ [u.name] := by
  rw [at?_append] at h
  obtain ⟨s, hs, hu⟩ := Option.bind_eq_some_iff.mp h
  obtain ⟨v, hv, hvu⟩ := Option.bind_eq_some_iff.mp hu
  obtain rfl : v = u := Option.some.inj hvu
  rw [namesTo_append hs, namesTo, hv]
  rfl

/-- Each step of the way to a place has a name. -/
theorem length_namesTo {t u : Tree} {a : Address} (h : t.at? a = some u) :
    (t.namesTo a).length = a.length := by
  induction a generalizing t with
  | nil => rfl
  | cons i a ih =>
    obtain ⟨s, hs, hu⟩ := Option.bind_eq_some_iff.mp h
    simp only [namesTo, hs, List.length_cons, ih hu]

theorem namesTo_eq_nil_iff {t u : Tree} {a : Address} (h : t.at? a = some u) :
    t.namesTo a = [] ↔ a = [] := by
  rw [← List.length_eq_zero_iff, length_namesTo h, List.length_eq_zero_iff]

end DirectoryListing.Tree
