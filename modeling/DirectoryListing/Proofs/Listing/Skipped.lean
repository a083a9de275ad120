import DirectoryListing.Proofs.Listing.Content

/-!
# Skipped blocks

A block that was never announced is skipped when reading is not strict: its entries go nowhere. They
still announce labels, and such an announcement takes the place of an earlier one for the same
label. The block that the earlier one was for then goes nowhere too. Two runs over the same blocks
are compared here, the one after the skipped block as it is and the other after the skipped block
without its entries.

## Main definitions

* `Listing.Serves`: the next block that concerns a label puts entries where the label leads
* `Listing.withoutEntries`: a listing without the entry lines of one of its blocks
* `Listing.TakesAway`: the entries of a block take a later block away from a directory of the tree

## Main results

* `Assembly.Loses.tree_addAll_eq_iff`: two runs with the same tree, one of which has lost some labels
* `parse_withoutEntries_iff`: a skipped block leaves no trace unless it takes a block away
-/

namespace DirectoryListing.Listing

/-- Of the blocks that have a label or announce it, the first one has it, and has entries. -/
def Serves (l : Text) : List Content → Prop
  | [] => False
  | c :: cs => if c.label = l then c.entries ≠ [] else l ∉ c.announced ∧ Serves l cs

namespace Assembly

variable {a a₀ a₁ : Assembly} {c : Content} {cs : List Content} {t : Tree} {l : Text} {k : Nat}
  {address : Tree.Address}

/-! ## Settled directories -/

/-- A directory of the tree has so many children, and no label leads there any more. -/
structure Settled (a : Assembly) (address : Tree.Address) (k : Nat) : Prop where
  width : ∃ t, a.tree = some t ∧ t.width? address = some k
  free : ∀ l, a.announced.lookup l ≠ some (.inside address)

/-- The width of a place says that there is something there. -/
theorem exists_at?_of_width? (h : t.width? address = some k) : ∃ u, t.at? address = some u := by
  obtain ⟨u, hu, -⟩ := Option.map_eq_some_iff.mp h
  exact ⟨u, hu⟩

/-- A settled directory stays settled. -/
theorem Settled.add (h : a.Settled address k) (ha : a.Fits) (c : Content) :
    (a.add c).Settled address k := by
  obtain ⟨⟨t, ht, hw⟩, hfree⟩ := h
  obtain ⟨u, hu⟩ := exists_at?_of_width? hw
  have hfits := ha.of_tree ht
  -- where the block goes there are no children yet, so this is not at or above the directory
  have apart : ∀ b, a.announced.place c.label = .inside b → ¬ b <+: address := by
    rintro b hb ⟨r, rfl⟩
    have hl := Announcements.place_eq_inside.mp hb
    obtain ⟨e, he⟩ := hfits.empty _ _ hl
    rcases r with _ | ⟨i, r⟩
    · exact hfree _ (by simpa using hl)
    · rw [Tree.at?_append_of_empty he] at hu
      cases hu
  refine ⟨⟨_, tree_add ht, ?_⟩, free_add ht (fun l _ => hfree l) fun j hj => ?_⟩
  · rcases hp : a.announced.place c.label with b | _
    · rw [← hw]
      exact Tree.width?_graft_of_not_prefix (apart b hp)
    · exact hw
  · rcases hp : a.announced.place c.label with b | _ <;> rw [hp] at hj <;> cases hj
    exact apart b hp (List.prefix_append b [j])

theorem Settled.addAll (h : a.Settled address k) (ha : a.Fits) (cs : List Content) :
    (a.addAll cs).Settled address k := by
  induction cs generalizing a with
  | nil => exact h
  | cons c cs ih => exact ih (h.add ha c) (ha.add c)

/-- Trees in which a directory has different numbers of children are different. -/
theorem Settled.tree_ne {m : Nat} (h₀ : a₀.Settled address k) (h₁ : a₁.Settled address m)
    (hkm : m ≠ k) : a₁.tree ≠ a₀.tree := by
  obtain ⟨t₀, ht₀, hw₀⟩ := h₀.width
  obtain ⟨t₁, ht₁, hw₁⟩ := h₁.width
  intro h
  rw [ht₀, ht₁] at h
  cases h
  exact hkm (Option.some.inj (hw₁.symm.trans hw₀))

/-! ## Lost labels -/

/-- The first assembly has lost some of the labels of the second: they lead nowhere. Otherwise the
two agree. -/
structure Loses (a₁ a₀ : Assembly) : Prop where
  tree : a₁.tree = a₀.tree
  place : ∀ l, a₁.announced.place l = a₀.announced.place l ∨ a₁.announced.place l = .nowhere

/-- A label that the first assembly has lost. -/
def Lost (a₁ a₀ : Assembly) (l : Text) : Prop :=
  a₁.announced.place l ≠ a₀.announced.place l

/-- A block that goes to the same place in both, or is empty, puts an end to the loss of the labels
that it has or announces, and leaves all else as it is. -/
theorem Loses.add (h : a₁.Loses a₀) (ht : a₀.tree = some t) (ha₀ : a₀.Fits) (ha₁ : a₁.Fits)
    (hc : ¬ a₁.Lost a₀ c.label ∨ c.entries = []) :
    (a₁.add c).Loses (a₀.add c) ∧
      ∀ l, (a₁.add c).Lost (a₀.add c) l ↔ a₁.Lost a₀ l ∧ c.label ≠ l ∧ l ∉ c.announced := by
  have ht₁ : a₁.tree = some t := h.tree.trans ht
  -- the place of the block decides where the labels that it announces lead
  have announced : ∀ l ∈ c.announced,
      (a₁.add c).announced.place l = (a₀.add c).announced.place l := by
    intro l hm
    rcases hc with hc | hc
    · obtain ⟨j, hj⟩ := place_add_of_mem hm
      rw [hj a₁ t ht₁, hj a₀ t ht, Decidable.not_not.mp hc]
    · rw [Content.announced, Listing.announced, hc] at hm
      cases hm
  refine ⟨⟨?_, fun l => ?_⟩, fun l => ?_⟩
  · rcases hc with hc | hc
    · rw [tree_add ht₁, tree_add ht, Decidable.not_not.mp hc]
    · rw [ha₁.tree_add_of_entries_eq_nil ht₁ hc, ha₀.tree_add_of_entries_eq_nil ht hc]
  · by_cases hm : l ∈ c.announced
    · exact .inl (announced l hm)
    · rw [place_add_of_not_mem hm, place_add_of_not_mem hm]
      split
      · exact .inl rfl
      · exact h.place l
  · by_cases hm : l ∈ c.announced
    · simp [Lost, announced l hm, hm]
    · rw [Lost, place_add_of_not_mem hm, place_add_of_not_mem hm]
      by_cases hl : c.label = l
      · simp [hl]
      · simp [Lost, hm, hl, Ne.symm hl]

/-- A block with a lost label, and with entries, makes a difference that stays. -/
theorem Loses.tree_addAll_ne (h : a₁.Loses a₀) (ht : a₀.tree = some t) (ha₀ : a₀.Fits)
    (ha₁ : a₁.Fits) (hc : a₁.Lost a₀ c.label) (hentries : c.entries ≠ []) :
    (a₁.addAll (c :: cs)).tree ≠ (a₀.addAll (c :: cs)).tree := by
  have ht₁ : a₁.tree = some t := h.tree.trans ht
  have hp₁ : a₁.announced.place c.label = .nowhere := (h.place c.label).resolve_left hc
  rw [Lost, hp₁] at hc
  -- the directory that the block fills in the one run, and leaves empty in the other
  obtain ⟨address, hp₀⟩ : ∃ address, a₀.announced.place c.label = .inside address := by
    rcases hp₀ : a₀.announced.place c.label with address | _
    · exact ⟨address, rfl⟩
    · exact absurd hp₀.symm hc
  have hl₀ := Announcements.place_eq_inside.mp hp₀
  have hfits := ha₀.of_tree ht
  obtain ⟨e, he⟩ := hfits.empty _ _ hl₀
  have used : ∀ l, l ≠ c.label → a₀.announced.lookup l ≠ some (.inside address) :=
    fun l hne hl => hne (hfits.unique _ _ _ hl hl₀)
  -- it lies above all that the block announces, and so is settled in both runs
  have settled₀ : (a₀.add c).Settled address c.entries.length := by
    refine ⟨⟨_, tree_add ht, ?_⟩, free_add ht used fun j => ?_⟩
    · simp [hp₀, Tree.width?, Tree.at?_graft_self he, Tree.children, leaves]
    · simp [hp₀, Place.entry]
  have settled₁ : (a₁.add c).Settled address 0 := by
    refine ⟨⟨_, tree_add ht₁, ?_⟩, free_add ht₁ (fun l hne hl => used l hne ?_) fun j => ?_⟩
    · simp [hp₁, Tree.width?, he, Tree.children]
    · rw [← Announcements.place_eq_inside] at hl ⊢
      rcases h.place l with hl' | hl'
      · rwa [← hl']
      · rw [hl] at hl'
        cases hl'
    · simp [hp₁, Place.entry]
  have width : 0 ≠ c.entries.length := fun h => hentries (List.eq_nil_of_length_eq_zero h.symm)
  exact (settled₀.addAll (ha₀.add c) cs).tree_ne (settled₁.addAll (ha₁.add c) cs) width

/-- **Two runs of which one has lost some labels** come to the same tree just when no block with
entries has a lost label that was not announced anew. -/
theorem Loses.tree_addAll_eq_iff (h : a₁.Loses a₀) (ht : a₀.tree = some t) (ha₀ : a₀.Fits)
    (ha₁ : a₁.Fits) :
    (a₁.addAll cs).tree = (a₀.addAll cs).tree ↔ ¬ ∃ l, a₁.Lost a₀ l ∧ Serves l cs := by
  -- block by block, while the two trees are the same; once they differ they go on to
  induction cs generalizing a₀ a₁ t with
  | nil => simpa [Serves, addAll] using h.tree
  | cons c cs ih =>
    by_cases hc : ¬ a₁.Lost a₀ c.label ∨ c.entries = []
    · obtain ⟨hadd, hlost⟩ := h.add ht ha₀ ha₁ hc
      have same : ∀ l, a₁.Lost a₀ l ∧ Serves l (c :: cs) ↔
          (a₁.add c).Lost (a₀.add c) l ∧ Serves l cs := by
        intro l
        rw [hlost, Serves]
        by_cases hl : c.label = l
        · subst hl
          rcases hc with hc | hc <;> simp [hc]
        · simp [hl, and_assoc]
      rw [addAll_cons, addAll_cons, ih hadd (tree_add ht) (ha₀.add c) (ha₁.add c)]
      simp only [same]
    -- the block fills a directory in the one run only
    · obtain ⟨hlost, hentries⟩ := not_or.mp hc
      have hlost : a₁.Lost a₀ c.label := Classical.not_not.mp hlost
      refine iff_of_false (h.tree_addAll_ne ht ha₀ ha₁ hlost hentries) ?_
      exact not_not_intro ⟨c.label, hlost, by simpa [Serves] using hentries⟩

end Assembly

/-! ## Taking the entries out of a listing -/

/-- The lines of a listing without the entry lines of the block whose header is the line with this
number: what is left of the block is its header and its total. -/
def withoutEntries (n : Nat) (lines : List Text) : List Text :=
  let rest := lines.drop n
  lines.take n ++ (rest.takeWhile (!·.isBlank)).take 1 ++ rest.dropWhile (!·.isBlank)

/-- The entries of the block whose header is the line with this number take a later block away from
the tree: they announce a label that leads to a directory of the tree, and the next block that
concerns the label has it, and has entries. -/
def TakesAway (n : Nat) (lines : List Text) : Prop :=
  ∃ b c after, (blocks lines).dropWhile (·.header.number ≠ n) = b :: after ∧ b.content? = some c ∧
    let before := (blocks lines).takeWhile (·.header.number ≠ n)
    ∃ l ∈ c.announced, Serves l (after.filterMap Block.content?) ∧
      ∃ address, (Assembly.start.addAll (before.filterMap Block.content?)).announced.lookup l =
        some (.inside address)

variable {lines : List Text} {n : Nat} {label : Text} {before after : List Block} {b : Block}
  {c : Content} {t : Tree}

theorem map_withoutEntries (n : Nat) (lines : List Text) :
    (withoutEntries n lines).map Text.withoutLineEnd =
      withoutEntries n (lines.map Text.withoutLineEnd) := by
  have same : (fun t : Text => !t.isBlank) ∘ Text.withoutLineEnd = fun t => !t.isBlank :=
    funext fun t => congrArg not t.isBlank_withoutLineEnd
  simp only [withoutEntries, List.map_append, List.map_take, ← List.map_drop,
    List.takeWhile_map, List.dropWhile_map, same]

/-- What is left of a block without its entries, among the lines before it and those after it. -/
theorem withoutEntries_run {xs body ys : List Text} {header : Text}
    (hbody : ∀ t ∈ body, (!t.isBlank) = true) (hys : ∀ t ∈ ys.head?, t.isBlank = true) :
    withoutEntries (xs.length + 1) (xs ++ header :: (body ++ ys)) =
      xs ++ header :: (body.take 1 ++ ys) := by
  have cut : xs ++ header :: (body ++ ys) = (xs ++ [header]) ++ (body ++ ys) := by simp
  have hlen : xs.length + 1 = (xs ++ [header]).length := by simp
  have htake : ys.takeWhile (!·.isBlank) = [] := by
    cases ys <;> simp_all
  have hdrop : ys.dropWhile (!·.isBlank) = ys := by
    cases ys <;> simp_all
  rw [withoutEntries, cut, hlen, List.take_left, List.drop_left,
    List.takeWhile_append_of_pos hbody, List.dropWhile_append_of_pos hbody, htake, hdrop]
  simp

/-- The blocks of a listing after the entries of one of them are taken out. -/
theorem paragraphs_withoutEntries (h : blocks lines = before ++ b :: after) :
    paragraphs (withoutEntries b.header.number lines) =
      (before ++ ⟨b.header, b.body.take 1⟩ :: after).map Block.texts := by
  obtain ⟨xs, ys, hls, hxs, hb, hys, rfl⟩ := Block.ofLines_eq_append_cons h
  have number : b.header.number = xs.length + 1 := by
    rw [Line.number_of_numberedFrom hls, Nat.add_comm]
  have texts := Line.map_text_numberedFrom 1 lines
  rw [← Line.numbered, hls] at texts
  -- the numbers of the later lines are others now, which no block depends on
  have left : (Line.numbered (withoutEntries b.header.number lines)).map (·.text) =
      (xs ++ (b.header :: b.body.take 1 ++ ys)).map (·.text) := by
    have run := @withoutEntries_run (xs.map (·.text)) (b.body.map (·.text)) (ys.map (·.text))
      b.header.text ?_ ?_
    · rw [Line.numbered, Line.map_text_numberedFrom, map_withoutEntries, ← texts, number]
      simpa using run
    · simpa [Line.isBlank] using fun l hl => hb l (List.mem_cons_of_mem _ hl)
    · cases ys with
      | nil => simp
      | cons y ys => simpa [Line.isBlank] using Block.ends_cons.mp hys
  have run : ∀ k ∈ b.header :: b.body.take 1, Block.inBlock k = true := fun k hk =>
    hb k ((List.cons_sublist_cons.mpr (List.take_sublist 1 b.body)).subset hk)
  rw [paragraphs, Block.map_texts_ofLines left, hxs, Block.ofLines_append _ hys,
    Block.ofLines_run run]
  rfl

/-- The header of a block sets it apart from the blocks before it. -/
theorem split_at_number (h : blocks lines = before ++ b :: after) :
    (blocks lines).takeWhile (·.header.number ≠ b.header.number) = before ∧
      (blocks lines).dropWhile (·.header.number ≠ b.header.number) = b :: after := by
  obtain ⟨xs, ys, hls, hxs, -⟩ := Block.ofLines_eq_append_cons h
  -- the header of an earlier block is an earlier line
  have earlier : ∀ b' ∈ before, decide (b'.header.number ≠ b.header.number) = true := by
    have hbefore : Block.ofLines xs = before := by simpa [Block.ofLines] using hxs []
    intro b' hb'
    obtain ⟨xs₁, xs₂, rfl⟩ := List.append_of_mem (Block.header_mem (hbefore ▸ hb'))
    have hb := Line.number_of_numberedFrom hls
    rw [List.append_assoc, List.cons_append] at hls
    have hb₁ := Line.number_of_numberedFrom hls
    rw [decide_eq_true_eq, hb, hb₁, List.length_append, List.length_cons]
    omega
  rw [h, List.takeWhile_append_of_pos earlier, List.dropWhile_append_of_pos earlier]
  simp

/-! ## Listings with a skipped block -/

/-- The runs after a block that goes nowhere, and after the same block without its entries: the
first has lost the labels of the tree that the block announces. -/
theorem Assembly.loses_of_nowhere {a : Assembly} (ht : a.tree = some t)
    (hp : a.announced.lookup c.label = none) :
    (a.add c).Loses (a.add ⟨c.label, []⟩) ∧
      ∀ l, (a.add c).Lost (a.add ⟨c.label, []⟩) l ↔
        l ∈ c.announced ∧ ∃ address, a.announced.lookup l = some (.inside address) := by
  have nowhere : a.announced.place c.label = .nowhere := by
    rw [Announcements.place, hp, Option.getD_none]
  have lost : ∀ l ∈ c.announced, (a.add c).announced.place l = .nowhere := by
    intro l hm
    obtain ⟨j, hj⟩ := place_add_of_mem hm
    rw [hj a t ht, nowhere, Place.entry]
  -- what is used up led nowhere before
  have kept : ∀ l, (a.add ⟨c.label, []⟩).announced.place l = a.announced.place l := by
    intro l
    rw [place_add_of_not_mem (by simp [Content.announced, Listing.announced])]
    split
    · rename_i hl
      rw [hl, nowhere]
    · rfl
  have same : ∀ l, l ∉ c.announced → (a.add c).announced.place l = a.announced.place l := by
    intro l hm
    rw [place_add_of_not_mem hm]
    split
    · rename_i hl
      rw [hl, nowhere]
    · rfl
  refine ⟨⟨?_, fun l => ?_⟩, fun l => ?_⟩
  · rw [tree_add ht, tree_add ht, nowhere]
  · by_cases hm : l ∈ c.announced
    · exact .inr (lost l hm)
    · exact .inl ((same l hm).trans (kept l).symm)
  · by_cases hm : l ∈ c.announced
    · simp only [Lost, lost l hm, kept, hm, true_and, ← Announcements.place_eq_inside]
      cases a.announced.place l <;> simp
    · simp [Lost, same l hm, kept, hm]

/-- What a listing says after the entries of one of its blocks are taken out. -/
theorem contents_withoutEntries (h : blocks lines = before ++ b :: after)
    (hc : b.content? = some c) : contents (withoutEntries b.header.number lines) =
      before.filterMap Block.content? ++ ⟨c.label, []⟩ :: after.filterMap Block.content? := by
  have hb : Content.of? (Block.texts ⟨b.header, b.body.take 1⟩) = some ⟨c.label, []⟩ :=
    Block.content?_eq_some.mpr
      ⟨(Block.content?_eq_some.mp hc).1, by simp [Block.entries, readEntries]⟩
  rw [contents, paragraphs_withoutEntries h, List.filterMap_map, List.filterMap_append]
  exact congrArg _ (List.filterMap_cons_some hb)

/-- Taking entries out of a listing leaves no block that says nothing. -/
theorem readable_withoutEntries (h : blocks lines = before ++ b :: after)
    (hread : ∀ p ∈ paragraphs lines, (Content.of? p).isSome = true) :
    ∀ p ∈ paragraphs (withoutEntries b.header.number lines), (Content.of? p).isSome = true := by
  rw [paragraphs, h, List.forall_mem_map] at hread
  rw [paragraphs_withoutEntries h, List.forall_mem_map]
  intro b₁ hb₁
  rcases List.mem_append.mp hb₁ with hb₁ | hb₁
  · exact hread b₁ (List.mem_append_left _ hb₁)
  rcases List.mem_cons.mp hb₁ with rfl | hb₁
  · obtain ⟨c, hc⟩ := Option.isSome_iff_exists.mp (hread b (by simp))
    have hlabel := (Block.content?_eq_some.mp hc).1
    refine Option.isSome_iff_exists.mpr ⟨⟨c.label, []⟩, Block.content?_eq_some.mpr ⟨hlabel, ?_⟩⟩
    simp [Block.entries, readEntries]
  · exact hread b₁ (by simp [hb₁])

/-- **A skipped block leaves no trace** in the tree just when its entries take no later block away
from it: then the listing without its entry lines has the same tree. It always has one. -/
theorem parse_withoutEntries_iff (hok : (parse false lines).result = .ok t)
    (hskipped : .skipped label n ∈ (parse false lines).notes) :
    ∃ t', (parse false (withoutEntries n lines)).result = .ok t' ∧
      (t' = t ↔ ¬ TakesAway n lines) := by
  obtain ⟨hread, -, htree⟩ := parse_result_eq_ok.mp hok
  obtain ⟨before, b, after, hbs, rfl, hlabel, hp⟩ := skipped_mem_notes hskipped
  obtain ⟨c, hc⟩ : ∃ c, b.content? = some c :=
    Option.isSome_iff_exists.mp (hread _ (List.mem_map_of_mem (by simp [hbs])))
  obtain rfl : label = c.label :=
    Option.some.inj (hlabel.symm.trans (Block.content?_eq_some.mp hc).1)
  -- the run up to the skipped block
  generalize ha : Assembly.start.addAll (before.filterMap Block.content?) = a at hp
  have hfits : a.Fits := ha ▸ Assembly.fits_start.addAll _
  obtain ⟨t₀, ht₀⟩ : ∃ t₀, a.tree = some t₀ := by
    cases h : a.tree with
    | none => simp [Assembly.place?, h] at hp
    | some t₀ => exact ⟨t₀, rfl⟩
  rw [Assembly.place?_of_tree ht₀] at hp
  -- the two runs after it
  obtain ⟨hloses, hlost⟩ := Assembly.loses_of_nowhere ht₀ hp
  rw [contents_eq, hbs, List.filterMap_append, List.filterMap_cons_some hc,
    Assembly.addAll_append, ha, Assembly.addAll_cons] at htree
  obtain ⟨t', ht'⟩ := Option.isSome_iff_exists.mp (Assembly.isSome_tree_addAll
    (Assembly.isSome_tree_add a ⟨c.label, []⟩) (after.filterMap Block.content?))
  have same : some t = some t' ↔ _ :=
    htree ▸ ht' ▸ hloses.tree_addAll_eq_iff (Assembly.tree_add ht₀) (hfits.add _) (hfits.add _)
  refine ⟨t', parse_result_eq_ok.mpr ⟨readable_withoutEntries hbs hread, by simp, ?_⟩, ?_⟩
  · rw [contents_withoutEntries hbs hc, Assembly.addAll_append, ha, Assembly.addAll_cons, ht']
  · obtain ⟨hbefore, hafter⟩ := split_at_number hbs
    rw [eq_comm, ← Option.some_inj, same, TakesAway]
    simp only [hlost, hbefore, hafter, ha]
    constructor
    · rintro h ⟨b₁, c₁, after₁, heq, hc₁, l, hl, hserves, haddress⟩
      cases heq
      cases hc.symm.trans hc₁
      exact h ⟨l, ⟨hl, haddress⟩, hserves⟩
    · rintro h ⟨l, ⟨hl, haddress⟩, hserves⟩
      exact h ⟨b, c, after, rfl, hc, l, hl, hserves, haddress⟩

/-! ## A block taken away -/

/-- A line for a directory `a`. -/
def directoryLine : Text := "drwxr-xr-x 2 u g 0 Jan 1 00:00 a".toList

/-- A line for a file `f`. -/
def fileLine : Text := "-rw-r--r-- 1 u g 1 Jan 1 00:00 f".toList

/-- A listing of a directory `a` with a file, and between the two a block that nothing announces. It
announces the directory once more. -/
def announcedTwice : List Text :=
  [".:".toList, "total 0".toList, directoryLine, [],
    ".:".toList, "total 0".toList, directoryLine, [],
    "./a:".toList, "total 0".toList, fileLine]

/-- The file is not in the tree. -/
theorem parse_announcedTwice : (parse false announcedTwice).result =
    .ok (.directory .root [.directory ⟨directoryLine, ['a'], 0⟩ []]) :=
  eq_ok_of_toOption (by decide +kernel)

/-- The block in between is skipped. -/
theorem skipped_announcedTwice : .skipped ['.'] 5 ∈ (parse false announcedTwice).notes := by
  decide +kernel

theorem parse_withoutEntries_iff_announcedTwice :
    (parse false announcedTwice).result =
        .ok (.directory .root [.directory ⟨directoryLine, ['a'], 0⟩ []]) ∧
      .skipped ['.'] 5 ∈ (parse false announcedTwice).notes ∧
      ∃ t', (parse false (withoutEntries 5 announcedTwice)).result = .ok t' ∧
        (t' = .directory .root [.directory ⟨directoryLine, ['a'], 0⟩ []] ↔
          ¬ TakesAway 5 announcedTwice) :=
  ⟨parse_announcedTwice, skipped_announcedTwice,
    parse_withoutEntries_iff parse_announcedTwice skipped_announcedTwice⟩

/-- A skipped block may leave a trace: without its entry, the file is in the tree. -/
theorem not_forall_parse_withoutEntries :
    ¬ ∀ (lines : List Text) (t : Tree) (label : Text) (n : Nat),
      (parse false lines).result = .ok t → .skipped label n ∈ (parse false lines).notes →
        (parse false (withoutEntries n lines)).result = .ok t := by
  intro h
  have same := h _ _ _ _ parse_announcedTwice skipped_announcedTwice
  have left : (parse false (withoutEntries 5 announcedTwice)).result =
      .ok (.directory .root [.directory ⟨directoryLine, ['a'], 0⟩ [.file ⟨fileLine, ['f'], 1⟩]]) :=
    eq_ok_of_toOption (by decide +kernel)
  rw [left] at same
  simp at same

end DirectoryListing.Listing
