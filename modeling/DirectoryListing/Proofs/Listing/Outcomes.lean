import DirectoryListing.Proofs.Listing.Content

/-!
# What a listing without a tree comes to

A listing has no tree for one of two reasons. One of its lines is wrong: then its blocks are in
error, at this line, and so is the listing. Or it is empty: then it has no block, and all of its
lines are blank. This is so whether reading is strict or not.

## Main results

* `readEntries_eq_error`: the first line that is no entry
* `Assembly.addBlocks_eq_error`: an error of some blocks is that of one of their lines
* `parse_eq_malformed_iff`, `parse_eq_empty_iff`: the two errors of a listing
* `blocks_eq_nil_iff`: the listings without a block
-/

namespace DirectoryListing.Listing

variable {strict : Bool} {bs : List Block} {b : Block} {lines : List Text} {e : Error} {l : Line}
  {r : Reason}

/-! ## Blocks -/

/-- The first line that does not have the shape of an entry line ends the reading of entries. -/
theorem readEntries_eq_error {ls : List Line} {e : Error} (h : readEntries ls = .error e) :
    ∃ xs k ys, ls = xs ++ k :: ys ∧ (∀ x ∈ xs, EntryLine.read? x.text ≠ none) ∧
      EntryLine.read? k.text = none ∧ e = .malformed k .shape := by
  induction ls with
  | nil => cases h
  | cons l ls ih =>
    rw [readEntries] at h
    rcases hl : EntryLine.read? l.text with _ | entry
    · rw [hl] at h
      cases h
      exact ⟨[], l, ls, rfl, List.forall_mem_nil _, hl, rfl⟩
    · rcases hls : readEntries ls with e' | entries <;> rw [hl, hls] at h <;> cases h
      obtain ⟨xs, k, ys, rfl, hxs, hk, he⟩ := ih hls
      refine ⟨l :: xs, k, ys, rfl, List.forall_mem_cons.mpr ⟨?_, hxs⟩, hk, he⟩
      simp [hl]

namespace Assembly

variable {a : Assembly}

/-- An error in a block is that of one of its lines. -/
theorem addBlock_eq_error (h : (a.addBlock strict b).2 = .error e) :
    ∃ k ∈ b.lines, ∃ r, e = .malformed k r := by
  cases hb : b.label? with
  | none =>
    rw [addBlock, hb] at h
    cases h
    exact ⟨b.header, List.mem_cons_self, _, rfl⟩
  | some l =>
    by_cases hs : strict = true → (a.place? l).isSome = true
    · obtain ⟨_, -, read⟩ := addBlock_of_label hb hs
      rw [read] at h
      rcases hes : readEntries b.entries with e' | es <;> rw [hes] at h <;> cases h
      obtain ⟨xs, k, ys, hls, -, -, rfl⟩ := readEntries_eq_error hes
      have hk : k ∈ b.entries := hls ▸ List.mem_append_right xs List.mem_cons_self
      exact ⟨k, List.mem_cons_of_mem _ (List.mem_of_mem_drop hk), _, rfl⟩
    · obtain ⟨rfl, hp⟩ := Classical.not_imp.mp hs
      rw [addBlock_refused hb (Option.not_isSome_iff_eq_none.mp hp)] at h
      cases h
      exact ⟨b.header, List.mem_cons_self, _, rfl⟩

/-- **An error of some blocks** is that of one of their lines. -/
theorem addBlocks_eq_error (h : (a.addBlocks strict bs).2 = .error e) :
    ∃ k ∈ bs.flatMap Block.lines, ∃ r, e = .malformed k r := by
  induction bs generalizing a with
  | nil => cases h
  | cons b bs ih =>
    cases hb : (a.addBlock strict b).2 with
    | error e' =>
      rw [addBlocks_cons_of_error hb] at h
      cases h
      obtain ⟨k, hk, r, rfl⟩ := addBlock_eq_error hb
      exact ⟨k, List.mem_append_left _ hk, r, rfl⟩
    | ok a₁ =>
      rw [addBlocks_cons_of_ok hb] at h
      obtain ⟨k, hk, r, rfl⟩ := ih h
      exact ⟨k, List.mem_append_right _ hk, r, rfl⟩

end Assembly

/-! ## Whole listings -/

/-- It can be told whether two listings come to the same. -/
instance : DecidableEq (Except Error Tree)
  | .error e, .error e' => decidable_of_iff (e = e') ⟨congrArg _, Except.error.inj⟩
  | .ok t, .ok t' => decidable_of_iff (t = t') ⟨congrArg _, Except.ok.inj⟩
  | .error _, .ok _ => isFalse nofun
  | .ok _, .error _ => isFalse nofun

/-- The error of a listing is that of its blocks, if this is the error of a line. -/
theorem parse_eq_malformed_iff : (parse strict lines).result = .error (.malformed l r) ↔
    (Assembly.start.addBlocks strict (blocks lines)).2 = .error (.malformed l r) := by
  rw [result_parse]
  rcases (Assembly.start.addBlocks strict (blocks lines)).2 with e | a
  · simp [Except.bind]
  · cases ht : a.tree <;> simp [Except.bind, ht]

/-- A line in error is a line of a block. -/
theorem mem_of_parse_eq_malformed (h : (parse strict lines).result = .error (.malformed l r)) :
    l ∈ (blocks lines).flatMap Block.lines := by
  obtain ⟨k, hk, _, he⟩ := Assembly.addBlocks_eq_error (parse_eq_malformed_iff.mp h)
  cases he
  exact hk

/-- **An empty listing** has no block. -/
theorem parse_eq_empty_iff :
    (parse strict lines).result = .error .empty ↔ blocks lines = [] := by
  rw [result_parse]
  cases hbs : blocks lines with
  | nil => exact iff_of_true rfl rfl
  | cons b bs =>
    refine iff_of_false (fun h => ?_) (List.cons_ne_nil b bs)
    cases hb : (Assembly.start.addBlocks strict (b :: bs)).2 with
    | error e =>
      obtain ⟨k, -, r, rfl⟩ := Assembly.addBlocks_eq_error hb
      rw [hb] at h
      cases h
    | ok a =>
      -- the first block has made a tree
      obtain ⟨hall, -, ha⟩ := Assembly.addBlocks_eq_ok.mp hb
      obtain ⟨c, hc⟩ := Option.isSome_iff_exists.mp (hall b List.mem_cons_self)
      rw [List.filterMap_cons_some hc, Assembly.addAll_cons] at ha
      have grown := Assembly.isSome_tree_addAll (Assembly.isSome_tree_add .start c)
        (bs.filterMap Block.content?)
      rw [ha] at grown
      obtain ⟨t, ht⟩ := Option.isSome_iff_exists.mp grown
      simp [hb, Except.bind, ht] at h

/-- A listing without blocks has blank lines only. -/
theorem blocks_eq_nil_iff : blocks lines = [] ↔ ∀ line ∈ lines, line.isBlank = true := by
  have none : blocks lines = [] ↔ (Line.numbered lines).filter Block.inBlock = [] := by
    rw [← Block.flatMap_lines_ofLines, List.flatMap_eq_nil_iff, List.eq_nil_iff_forall_not_mem]
    exact forall₂_congr fun b _ => (iff_of_false (List.cons_ne_nil _ _) id).symm
  have text : ∀ l : Line, ¬ Block.inBlock l = true ↔ l.text.isBlank = true := by
    simp [Line.isBlank]
  have texts := Line.map_text_numberedFrom 1 lines
  rw [none, List.filter_eq_nil_iff]
  calc (∀ l ∈ Line.numbered lines, ¬ Block.inBlock l = true)
      ↔ ∀ line ∈ (Line.numbered lines).map (·.text), line.isBlank = true := by
        simp only [text, List.forall_mem_map]
    _ ↔ ∀ line ∈ lines, line.isBlank = true := by
        rw [Line.numbered, texts, List.forall_mem_map]
        simp only [Text.isBlank_withoutLineEnd]

end DirectoryListing.Listing
