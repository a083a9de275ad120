import DirectoryListing.Forest

/-!
# Forests made by deeds

A forest is made by deeds, each of which makes a node or puts one into another. The two kinds of
links between nodes are set at different times: a node has its parent from the start, and the parent
holds the node only once it has been put there, which may happen more than once or never. A deed may
also be rejected, and then all stays as it was.

What is shown here of the links is kept by one deed, and so it holds after any number of them.

## Main definitions

* `Forest.parent? f i`, `Forest.held f i`: the links of a node, upwards and downwards
* `Forest.Deed`, `Forest.Deed.perform f d`: a deed, and what comes of it
* `Forest.after f d`, `Forest.afterAll f ds`: the forest that deeds leave, also when some are rejected
* `Forest.Possible f ds`: deeds that name nodes which are there
* `Forest.Sound f`: the links fit each other

## Main results

* `Forest.perform_make_eq_error_iff`, `Forest.perform_put_eq_error_iff`: when a deed is rejected
* `Forest.Sound.after`, `Forest.Sound.afterAll`: the links fit each other whatever is done
-/

namespace DirectoryListing.Forest

variable {f f' : Forest} {i j parent child : Nat} {p : Option Nat} {kind : Kind}
  {line name : Text} {bytes : Int} {item : Item} {d : Deed} {ds : List Deed} {e : Error}

/-! ## Links -/

/-- The number of nodes. -/
def size (f : Forest) : Nat := f.items.length

/-- The number of a node's parent, if the node has one. -/
def parent? (f : Forest) (i : Nat) : Option Nat := f.items[i]?.bind (·.parent)

/-- The numbers of the children that have been put into a node. -/
def held (f : Forest) (i : Nat) : List Nat := (f.items[i]?.map (·.held)).getD []

/-- A node with this number has been made, and is a directory. -/
def IsDirectory (f : Forest) (i : Nat) : Prop := f.items[i]?.map (·.kind) = some .directory

instance (f : Forest) (i : Nat) : Decidable (f.IsDirectory i) :=
  inferInstanceAs (Decidable (_ = _))

theorem IsDirectory.lt_size (h : f.IsDirectory i) : i < f.size := by
  obtain ⟨item, hi, -⟩ := Option.map_eq_some_iff.mp h
  exact (List.getElem?_eq_some_iff.mp hi).1

theorem lt_size_of_parent? (h : f.parent? i = some parent) : i < f.size := by
  obtain ⟨item, hi, -⟩ := Option.bind_eq_some_iff.mp h
  exact (List.getElem?_eq_some_iff.mp hi).1

/-! ## Deeds -/

/-- What is done to a forest: a node is made, below a parent or without one, or a node is put into
another. -/
inductive Deed where
  | make (kind : Kind) (parent : Option Nat) (line name : Text) (bytes : Int)
  | put (parent child : Nat)
  deriving DecidableEq, Repr

/-- What comes of a deed: the forest after it, or the reason why it is rejected. -/
def Deed.perform (f : Forest) : Deed → Except Error Forest
  | make kind parent line name bytes => (f.add kind parent line name bytes).map (·.1)
  | put parent child => f.append parent child

/-- The forest that a deed leaves. -/
def after (f : Forest) (d : Deed) : Forest :=
  match d.perform f with
  | .ok f' => f'
  | .error _ => f

/-- The forest that some deeds leave, one after the other. -/
def afterAll (f : Forest) (ds : List Deed) : Forest :=
  ds.foldl after f

/-- The deed names nodes that have been made, and a directory where it names a parent. -/
def Deed.Possible (f : Forest) : Deed → Prop
  | make _ parent _ _ _ => ∀ p ∈ parent, f.IsDirectory p
  | put parent child => f.IsDirectory parent ∧ child < f.size

instance (f : Forest) : (d : Deed) → Decidable (d.Possible f)
  | .make _ none _ _ _ => isTrue nofun
  | .make _ (some p) _ _ _ => decidable_of_iff (f.IsDirectory p) (by simp [Deed.Possible])
  | .put _ _ => inferInstanceAs (Decidable (_ ∧ _))

/-- Each of the deeds names nodes that have been made when its turn comes. -/
def Possible (f : Forest) : List Deed → Prop
  | [] => True
  | d :: ds => d.Possible f ∧ (f.after d).Possible ds

instance decidablePossible : (f : Forest) → (ds : List Deed) → Decidable (f.Possible ds)
  | _, [] => isTrue trivial
  | f, d :: ds =>
    have := decidablePossible (f.after d) ds
    inferInstanceAs (Decidable (_ ∧ _))

/-! ## What comes of a deed -/

/-- The forest with one more node. -/
def push (f : Forest) (item : Item) : Forest := ⟨f.items ++ [item]⟩

/-- The forest with a child put into a node, behind what that one holds already. -/
def hold (f : Forest) (parent child : Nat) : Forest :=
  ⟨f.items.modify parent fun item => { item with held := item.held ++ [child] }⟩

theorem perform_make : (Deed.make kind p line name bytes).perform f =
    if bytes < 0 then .error (.negativeSize bytes)
    else .ok (f.push ⟨kind, ⟨line, name, bytes.toNat⟩, p, []⟩) := by
  by_cases hbytes : bytes < 0 <;> simp only [Deed.perform, add, checkedSize, hbytes, if_true,
    if_false] <;> rfl

theorem perform_put : (Deed.put parent child).perform f =
    if f.parent? child = some parent then .ok (f.hold parent child)
    else .error (.foreignChild (f.node child) (f.node parent)) := rfl

/-- **A node is not made** when its size is negative, and in no other case. -/
theorem perform_make_eq_error_iff : (Deed.make kind p line name bytes).perform f = .error e ↔
    bytes < 0 ∧ e = .negativeSize bytes := by
  rw [perform_make]
  split
  · rename_i hbytes
    simp [hbytes, eq_comm]
  · rename_i hbytes
    exact ⟨nofun, fun h => absurd h.1 hbytes⟩

/-- **A node is not put into another** when that is not its parent, and in no other case. -/
theorem perform_put_eq_error_iff : (Deed.put parent child).perform f = .error e ↔
    f.parent? child ≠ some parent ∧ e = .foreignChild (f.node child) (f.node parent) := by
  rw [perform_put]
  split
  · rename_i hparent
    simp [hparent]
  · rename_i hparent
    simp [hparent, eq_comm]

theorem after_eq_of_error (h : d.perform f = .error e) : f.after d = f := by
  rw [after, h]

/-- **A deed that is rejected** might as well not have been tried. -/
theorem afterAll_append_of_error {before later : List Deed}
    (h : d.perform (f.afterAll before) = .error e) :
    f.afterAll (before ++ d :: later) = f.afterAll (before ++ later) := by
  have same : (f.afterAll before).after d = f.afterAll before := after_eq_of_error h
  simp only [afterAll, List.foldl_append, List.foldl_cons] at same ⊢
  rw [same]

/-- **A deed that is done** makes a node that holds nothing, or puts a node into its parent. -/
theorem perform_eq_ok (h : d.perform f = .ok f') :
    (∃ kind p line name bytes, d = .make kind p line name bytes ∧
      f' = f.push ⟨kind, ⟨line, name, Int.toNat bytes⟩, p, []⟩) ∨
    ∃ parent child, d = .put parent child ∧ f.parent? child = some parent ∧
      f' = f.hold parent child := by
  cases d with
  | make kind p line name bytes =>
    rw [perform_make] at h
    split at h
    · cases h
    · exact .inl ⟨kind, p, line, name, bytes, rfl, (Except.ok.inj h).symm⟩
  | put parent child =>
    rw [perform_put] at h
    split at h
    · rename_i hparent
      exact .inr ⟨parent, child, rfl, hparent, (Except.ok.inj h).symm⟩
    · cases h

/-! ## Links after a deed -/

/-- The node that is made has the number behind all others, which are as they were. -/
theorem getElem?_push : (f.push item).items[i]? = if i = f.size then some item else f.items[i]? := by
  rw [push, size]
  split
  · rename_i hi
    rw [hi, List.getElem?_concat_length]
  · rename_i hi
    rcases Nat.lt_or_gt_of_ne hi with hlt | hgt
    · rw [List.getElem?_append_left hlt]
    · rw [List.getElem?_eq_none (by simp; omega), List.getElem?_eq_none (Nat.le_of_lt hgt)]

theorem parent?_push : (f.push item).parent? i = if i = f.size then item.parent else f.parent? i := by
  rw [parent?, getElem?_push]
  split <;> rfl

theorem held_push (hitem : item.held = []) : (f.push item).held i = f.held i := by
  have none : f.items[f.size]? = none := List.getElem?_eq_none (Nat.le_refl _)
  rw [held, getElem?_push]
  split
  · rename_i hi
    rw [held, hi, none, Option.map_some, hitem]
    rfl
  · rfl

theorem IsDirectory.push (h : f.IsDirectory i) (item : Item) : (f.push item).IsDirectory i := by
  rwa [IsDirectory, getElem?_push, if_neg (Nat.ne_of_lt h.lt_size)]

theorem parent?_hold : (f.hold parent child).parent? i = f.parent? i := by
  rw [parent?, hold, List.getElem?_modify, parent?]
  cases f.items[i]? with
  | none => rfl
  | some item =>
    show Item.parent (ite _ _ _) = _
    split <;> rfl

theorem mem_held_hold : j ∈ (f.hold parent child).held i →
    j ∈ f.held i ∨ i = parent ∧ j = child := by
  rw [held, hold, List.getElem?_modify, held]
  cases f.items[i]? with
  | none => exact .inl
  | some item =>
    show j ∈ Item.held (ite _ _ _) → _
    split
    · rename_i hi
      intro hj
      rcases List.mem_append.mp hj with hj | hj
      · exact .inl hj
      · exact .inr ⟨hi.symm, List.mem_singleton.mp hj⟩
    · exact .inl

theorem IsDirectory.hold (h : f.IsDirectory i) (parent child : Nat) :
    (f.hold parent child).IsDirectory i := by
  obtain ⟨item, hi, hkind⟩ := Option.map_eq_some_iff.mp h
  rw [IsDirectory, Forest.hold, List.getElem?_modify, hi]
  show some (Item.kind (ite _ _ _)) = _
  split <;> exact congrArg some hkind

/-! ## What the links keep to -/

/-- The links of a forest fit each other. A parent is a directory that was made before its children,
and what a node holds are children of its own. -/
structure Sound (f : Forest) : Prop where
  older : ∀ i p, f.parent? i = some p → p < i
  directory : ∀ i p, f.parent? i = some p → f.IsDirectory p
  own : ∀ i j, j ∈ f.held i → f.parent? j = some i

theorem sound_empty : Sound empty := by
  constructor <;> intro _ _ h <;> cases h

theorem Sound.push (hf : f.Sound) (hp : ∀ p ∈ item.parent, f.IsDirectory p)
    (hitem : item.held = []) : (f.push item).Sound where
  older i p h := by
    rw [parent?_push] at h
    split at h
    · rename_i hi
      exact hi ▸ (hp p h).lt_size
    · exact hf.older i p h
  directory i p h := by
    rw [parent?_push] at h
    split at h
    · exact (hp p h).push item
    · exact (hf.directory i p h).push item
  own i j h := by
    rw [held_push hitem] at h
    have hparent := hf.own i j h
    rwa [parent?_push, if_neg (Nat.ne_of_lt (lt_size_of_parent? hparent))]

theorem Sound.hold (hf : f.Sound) (h : f.parent? child = some parent) :
    (f.hold parent child).Sound where
  older i p hi := hf.older i p (parent?_hold ▸ hi)
  directory i p hi := (hf.directory i p (parent?_hold ▸ hi)).hold parent child
  own i j hj := by
    rw [parent?_hold]
    rcases mem_held_hold hj with hj | ⟨rfl, rfl⟩
    · exact hf.own i j hj
    · exact h

/-- **One deed** leaves links that fit each other, whether it is done or rejected. -/
theorem Sound.after (hf : f.Sound) (hd : d.Possible f) : (f.after d).Sound := by
  cases h : d.perform f with
  | error e => rwa [after_eq_of_error h]
  | ok f' =>
    rw [Forest.after, h]
    rcases perform_eq_ok h with ⟨kind, p, line, name, bytes, rfl, rfl⟩ |
      ⟨parent, child, rfl, hparent, rfl⟩
    · exact hf.push hd rfl
    · exact hf.hold hparent

/-- **Any number of deeds** leave links that fit each other. -/
theorem Sound.afterAll (hf : f.Sound) (hds : f.Possible ds) : (f.afterAll ds).Sound := by
  induction ds generalizing f with
  | nil => exact hf
  | cons d ds ih => exact ih (hf.after hds.1) hds.2

end DirectoryListing.Forest
