import DirectoryListing.Proofs.Listing.Leniency
import DirectoryListing.Proofs.Node.InitialParts

/-!
# Listings that are cut short

A listing is read as a stream. What its first lines come to is not taken back by the lines after
them: an error in them is the error of the whole, and the tree that they make is an initial part of
the whole one. The cut may fall anywhere. It leaves the blocks before it as they are, and of the
block that it falls into the header and the first of the other lines; so this block may lack its
total, and its directory the last of its children.

## Main definitions

* `Block.IsCut bs cs`: the blocks of a listing that is cut short
* `Listing.Assembly.IsInitial a a'`: the tree of an assembly is an initial part of that of another

## Main results

* `Block.isCut_ofLines`: the blocks before a cut
* `Assembly.addBlocks_of_isCut`: an error before a cut
* `Assembly.exists_addBlocks_of_isCut`: the tree of the blocks before a cut
* `parse_take`: the first lines of a listing
-/

namespace DirectoryListing

/-! ## The blocks before a cut -/

namespace Block

/-- The blocks of a listing that is cut short, and those of the whole listing. Only the last one
before the cut may lack lines, at its end. -/
inductive IsCut : List Block → List Block → Prop
  | nil {cs : List Block} : IsCut [] cs
  | last {header : Line} {body more : List Line} {cs : List Block} :
    IsCut [⟨header, body⟩] (⟨header, body ++ more⟩ :: cs)
  | cons {b : Block} {bs cs : List Block} : IsCut bs cs → IsCut (b :: bs) (b :: cs)

/-- **The blocks before a cut.** -/
theorem isCut_ofLines (ls ms : List Line) : IsCut (ofLines ls) (ofLines (ls ++ ms)) := by
  induction ls using ofLines.induct with
  | case1 =>
    rw [ofLines]
    exact .nil
  | case2 l ls hl ih =>
    rwa [List.cons_append, ofLines_cons_of_isBlank hl, ofLines_cons_of_isBlank hl]
  | case3 l ls hl ih =>
    have hl : inBlock l = true := by simpa using hl
    rw [List.cons_append, ofLines_cons_of_inBlock hl, ofLines_cons_of_inBlock hl]
    rw [List.takeWhile_append, List.dropWhile_append]
    -- the block reaches the cut, or it has ended before
    cases hrest : ls.dropWhile inBlock with
    | nil =>
      have whole : ls.takeWhile inBlock = ls := by
        have parts := List.takeWhile_append_dropWhile (p := inBlock) (l := ls)
        rwa [hrest, List.append_nil] at parts
      rw [if_pos (by rw [whole]), whole, ofLines]
      exact .last
    | cons k rest =>
      have shorter : (ls.takeWhile inBlock).length ≠ ls.length := by
        have parts := congrArg List.length
          (List.takeWhile_append_dropWhile (p := inBlock) (l := ls))
        rw [hrest, List.length_append, List.length_cons] at parts
        omega
      rw [if_neg shorter]
      rw [hrest] at ih
      exact .cons ih

end Block

namespace Listing

variable {strict : Bool} {bs cs : List Block} {e : Error}

/-! ## Entries before a cut -/

/-- An error in the first lines is that of all. -/
theorem readEntries_append_of_error {ls : List Line} (h : readEntries ls = .error e)
    (ms : List Line) : readEntries (ls ++ ms) = .error e := by
  induction ls with
  | nil => cases h
  | cons l ls ih =>
    rw [readEntries] at h
    rw [List.cons_append, readEntries]
    cases hl : EntryLine.read? l.text with
    | none =>
      rw [hl] at h
      exact h
    | some entry =>
      rcases hls : readEntries ls with e' | entries <;> rw [hl, hls] at h <;> cases h
      simp only [ih hls]

/-- The first of some lines that are read are read as well, to the first of the entries. -/
theorem exists_readEntries_of_append {ls ms : List Line} {entries : List (Kind × Entry)}
    (h : readEntries (ls ++ ms) = .ok entries) :
    ∃ first, readEntries ls = .ok first ∧ first <+: entries := by
  rw [readEntries_eq_ok, List.map_append, mapM_eq_some, List.map_append] at h
  obtain ⟨first, rest, rfl, hfirst, -⟩ := List.append_eq_map_iff.mp h
  refine ⟨first, ?_, List.prefix_append first rest⟩
  rw [readEntries_eq_ok, mapM_eq_some, hfirst]

namespace Assembly

variable {a a' a₁ : Assembly} {c c' : Content} {header : Line} {body more : List Line}

/-! ## Assemblies that grow -/

/-- The tree of the assembly, if it has one, is an initial part of that of the other. -/
def IsInitial (a a' : Assembly) : Prop :=
  ∀ t, a.tree = some t → ∃ u, a'.tree = some u ∧ t.IsInitial u

theorem IsInitial.refl (a : Assembly) : a.IsInitial a := fun t ht => ⟨t, ht, .refl t⟩

theorem IsInitial.trans (h : a.IsInitial a₁) (h' : a₁.IsInitial a') : a.IsInitial a' := by
  intro t ht
  obtain ⟨u, hu, htu⟩ := h t ht
  obtain ⟨v, hv, huv⟩ := h' u hu
  exact ⟨v, hv, htu.trans huv⟩

/-- **One more block** fills an empty directory, or none. -/
theorem isInitial_add (ha : a.Fits) (c : Content) : a.IsInitial (a.add c) := by
  intro t ht
  refine ⟨_, tree_add ht, ?_⟩
  cases hp : a.announced.place c.label with
  | nowhere => exact .refl t
  | inside address =>
    obtain ⟨e, he⟩ := (ha.of_tree ht).empty _ _ (Announcements.place_eq_inside.mp hp)
    exact Tree.isInitial_graft_of_empty he _

theorem isInitial_addAll (ha : a.Fits) (cs : List Content) : a.IsInitial (a.addAll cs) := by
  induction cs generalizing a with
  | nil => exact .refl a
  | cons c cs ih => exact (isInitial_add ha c).trans (ih (ha.add c))

/-- A block without its last entries fills the same directory, with the first of the children. -/
theorem isInitial_add_add (ha : a.Fits) (hlabel : c'.label = c.label)
    (hentries : c.entries <+: c'.entries) : (a.add c).IsInitial (a.add c') := by
  obtain ⟨rest, hrest⟩ := hentries
  have kids : leaves c'.entries = leaves c.entries ++ leaves rest := by
    rw [← hrest, leaves, List.map_append]
    rfl
  intro t ht
  cases hat : a.tree with
  | none =>
    -- the root is filled as any directory is
    have root : (Tree.directory .root []).at? [] = some (.directory .root []) := rfl
    rw [tree_add_of_none hat] at ht ⊢
    cases ht
    rw [kids]
    exact ⟨_, rfl, Tree.isInitial_graft root _ _⟩
  | some s =>
    rw [tree_add hat] at ht ⊢
    rw [hlabel, kids]
    cases hp : a.announced.place c.label with
    | nowhere =>
      rw [hp] at ht
      exact ⟨s, rfl, Option.some.inj ht ▸ .refl s⟩
    | inside address =>
      rw [hp] at ht
      cases ht
      obtain ⟨e, he⟩ := (ha.of_tree hat).empty _ _ (Announcements.place_eq_inside.mp hp)
      exact ⟨_, rfl, Tree.isInitial_graft he _ _⟩

/-! ## Runs over the blocks before a cut -/

/-- An error in the first lines of a block is that of the block. -/
theorem addBlock_append_of_error (h : (a.addBlock strict ⟨header, body⟩).2 = .error e) :
    (a.addBlock strict ⟨header, body ++ more⟩).2 = .error e := by
  have label : Block.label? ⟨header, body ++ more⟩ = Block.label? ⟨header, body⟩ := rfl
  -- a header alone has no entries that could be wrong
  have entries : ∀ e, readEntries (Block.entries ⟨header, body⟩) = .error e →
      readEntries (Block.entries ⟨header, body ++ more⟩) = .error e := by
    intro e he
    cases body with
    | nil => cases he
    | cons l ls => exact readEntries_append_of_error he more
  cases hb : Block.label? ⟨header, body⟩ with
  | none =>
    rw [addBlock, hb] at h
    rw [addBlock, label, hb]
    exact h
  | some l =>
    by_cases hs : strict = true → (a.place? l).isSome = true
    · obtain ⟨_, -, read⟩ := addBlock_of_label hb hs
      obtain ⟨_, -, read'⟩ := addBlock_of_label (label.trans hb) hs
      rw [read] at h
      rcases hes : readEntries (Block.entries ⟨header, body⟩) with e' | es <;> rw [hes] at h
      · rw [read', entries e' hes]
        exact h
      · cases h
    · obtain ⟨rfl, hp⟩ := Classical.not_imp.mp hs
      have hp : a.place? l = none := Option.not_isSome_iff_eq_none.mp hp
      rw [addBlock_refused hb hp] at h
      rw [addBlock_refused (label.trans hb) hp]
      exact h

/-- The first lines of a block that is read are read as well. -/
theorem exists_addBlock_of_append (ha : a.Fits)
    (h : (a.addBlock strict ⟨header, body ++ more⟩).2 = .ok a') :
    ∃ a₁, (a.addBlock strict ⟨header, body⟩).2 = .ok a₁ ∧ a₁.IsInitial a' := by
  obtain ⟨c', hc', hs, rfl⟩ := addBlock_eq_ok.mp h
  obtain ⟨hlabel, hentries⟩ := Block.content?_eq_some.mp hc'
  obtain ⟨first, hfirst, hinitial⟩ : ∃ first,
      readEntries (Block.entries ⟨header, body⟩) = .ok first ∧ first <+: c'.entries := by
    cases body with
    | nil => exact ⟨[], rfl, List.nil_prefix⟩
    | cons l ls => exact exists_readEntries_of_append hentries
  have hc : Block.content? ⟨header, body⟩ = some ⟨c'.label, first⟩ :=
    Block.content?_eq_some.mpr ⟨hlabel, hfirst⟩
  exact ⟨_, addBlock_eq_ok.mpr ⟨_, hc, hs, rfl⟩, isInitial_add_add ha rfl hinitial⟩

/-- **An error before a cut** is that of the whole. -/
theorem addBlocks_of_isCut (hcut : Block.IsCut bs cs) (h : (a.addBlocks strict bs).2 = .error e) :
    (a.addBlocks strict cs).2 = .error e := by
  induction hcut generalizing a with
  | nil => cases h
  | @last header body more cs =>
    cases hb : (a.addBlock strict ⟨header, body⟩).2 with
    | error e' =>
      rw [addBlocks_cons_of_error hb] at h
      cases h
      exact addBlocks_cons_of_error (addBlock_append_of_error hb)
    | ok a₁ =>
      rw [addBlocks_cons_of_ok hb] at h
      cases h
  | @cons b bs cs _ ih =>
    cases hb : (a.addBlock strict b).2 with
    | error e' =>
      rw [addBlocks_cons_of_error hb] at h ⊢
      exact h
    | ok a₁ =>
      rw [addBlocks_cons_of_ok hb] at h ⊢
      exact ih h

/-- **The blocks before a cut** are read if the whole is, and make an initial part of its tree. -/
theorem exists_addBlocks_of_isCut (hcut : Block.IsCut bs cs) (ha : a.Fits)
    (h : (a.addBlocks strict cs).2 = .ok a') :
    ∃ a₁, (a.addBlocks strict bs).2 = .ok a₁ ∧ a₁.IsInitial a' := by
  induction hcut generalizing a with
  | nil =>
    obtain ⟨-, -, rfl⟩ := addBlocks_eq_ok.mp h
    exact ⟨a, rfl, isInitial_addAll ha _⟩
  | @last header body more cs =>
    cases hb : (a.addBlock strict ⟨header, body ++ more⟩).2 with
    | error e =>
      rw [addBlocks_cons_of_error hb] at h
      cases h
    | ok a₂ =>
      rw [addBlocks_cons_of_ok hb] at h
      obtain ⟨a₁, h₁, hinitial⟩ := exists_addBlock_of_append ha hb
      obtain ⟨c, -, -, rfl⟩ := addBlock_eq_ok.mp hb
      -- the blocks after the cut let the tree grow further
      obtain ⟨-, -, rfl⟩ := addBlocks_eq_ok.mp h
      exact ⟨a₁, addBlocks_cons_of_ok h₁, hinitial.trans (isInitial_addAll (ha.add c) _)⟩
  | @cons b bs cs _ ih =>
    cases hb : (a.addBlock strict b).2 with
    | error e =>
      rw [addBlocks_cons_of_error hb] at h
      cases h
    | ok a₁ =>
      rw [addBlocks_cons_of_ok hb] at h ⊢
      obtain ⟨c, -, -, rfl⟩ := addBlock_eq_ok.mp hb
      exact ih (ha.add c) h

end Assembly

/-! ## Whole listings -/

/-- The blocks of the first lines of a listing. -/
theorem isCut_blocks_take (lines : List Text) (k : Nat) :
    Block.IsCut (blocks (lines.take k)) (blocks lines) := by
  have cut := Block.isCut_ofLines (Line.numbered (lines.take k))
    (Line.numberedFrom (1 + (lines.take k).length) (lines.drop k))
  rwa [Line.numbered, ← Line.numberedFrom_append, List.take_append_drop] at cut

/-- **The first lines of a listing.** An error of a line in them is the error of the listing. They
are empty when they are blank; and if they are not, and the listing has a tree, then they have a
tree that is an initial part of it. -/
theorem parse_take (strict : Bool) (lines : List Text) (k : Nat) :
    (∀ l r, (parse strict (lines.take k)).result = .error (.malformed l r) →
        (parse strict lines).result = .error (.malformed l r)) ∧
      ((parse strict (lines.take k)).result = .error .empty ↔
        ∀ line ∈ lines.take k, line.isBlank = true) ∧
      ∀ u, (parse strict lines).result = .ok u →
        (parse strict (lines.take k)).result = .error .empty ∨
          ∃ t, (parse strict (lines.take k)).result = .ok t ∧
            ∃ f, Node.TakesInto f (.ofTree t) (.ofTree u) := by
  have cut := isCut_blocks_take lines k
  refine ⟨fun l r h => ?_, ?_, fun u hu => ?_⟩
  · rw [parse_eq_malformed_iff] at h ⊢
    exact Assembly.addBlocks_of_isCut cut h
  · rw [parse_eq_empty_iff, blocks_eq_nil_iff]
  · obtain ⟨a, ha, hu⟩ := parse_iff_addBlocks.mp hu
    obtain ⟨a₁, ha₁, hinitial⟩ := Assembly.exists_addBlocks_of_isCut cut Assembly.fits_start ha
    cases ht : a₁.tree with
    | none =>
      refine .inl ?_
      rw [result_parse, ha₁, Except.bind, ht]
      rfl
    | some t =>
      obtain ⟨u', hu', htu⟩ := hinitial t ht
      obtain rfl : u' = u := Option.some.inj (hu'.symm.trans hu)
      exact .inr ⟨t, parse_iff_addBlocks.mpr ⟨a₁, ha₁, ht⟩, _, Node.takesInto_inside htu⟩

/-- Without its last line the listing has a directory without its file; and a wrong line is not
taken back by the lines after it. -/
theorem parse_take_announcedOnce :
    let cut := Tree.directory .root [.directory ⟨directoryLine, ['a'], 0⟩ []]
    let e : Error := .malformed ⟨8, ['?']⟩ .shape
    (parse true (announcedOnce.take 6)).result = .ok cut ∧
      (∃ f, Node.TakesInto f (.ofTree cut) (.ofTree announcedOnceTree)) ∧
      (parse true (announcedOnce ++ [['?'], fileLine])).result = .error e := by
  intro cut e
  have first : (parse true (announcedOnce.take 6)).result = .ok cut := by decide +kernel
  refine ⟨first, ?_, ?_⟩
  · obtain ⟨-, -, grown⟩ := parse_take true announcedOnce 6
    obtain hempty | ⟨t, ht, hf⟩ := grown _ (parse_announcedOnce true)
    · rw [first] at hempty
      cases hempty
    · obtain rfl : cut = t := Except.ok.inj (first.symm.trans ht)
      exact hf
  · obtain ⟨wrong, -⟩ := parse_take true (announcedOnce ++ [['?'], fileLine]) 8
    exact wrong _ _ (by decide +kernel)

end Listing

end DirectoryListing
