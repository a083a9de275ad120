import DirectoryListing.Listing.Block
import DirectoryListing.Proofs.Text.Lines

/-!
# The blocks of a listing

A listing splits into its blocks piece by piece: it may be cut wherever a blank line begins, and a
run of lines that are not blank is one block.

## Main definitions

* `Block.Ends ls`: the lines `ls` begin with a blank line or are none
* `Block.lines`: the lines of a block
* `Block.Runs ls bs`: the blocks `bs` are the longest runs of lines of `ls` that are not blank
* `Block.texts`: the lines of a block without their numbers

## Main results

* `Line.mem_numberedFrom`: a numbered line and its place in the listing
* `Block.ofLines_append`: cutting a listing where a block has ended
* `Block.ofLines_run`: a run of lines that are not blank
* `Block.runs_iff`: the blocks of a listing are its runs
* `Block.beforeLast?_eq_some`: a header is cut at its last colon
* `Block.ofLines_eq_append_cons`: the lines before, in and after a block
* `Block.map_texts_ofLines`: the blocks of a listing depend on the texts of its lines
-/

namespace DirectoryListing

/-! ## Lines -/

namespace Line

variable {n : Nat} {ts us : List Text}

theorem numberedFrom_cons (n : Nat) (t : Text) (ts : List Text) :
    numberedFrom n (t :: ts) = ⟨n, t.withoutLineEnd⟩ :: numberedFrom (n + 1) ts := rfl

theorem numberedFrom_append : numberedFrom n (ts ++ us) =
    numberedFrom n ts ++ numberedFrom (n + ts.length) us := by
  induction ts generalizing n with
  | nil => rfl
  | cons t ts ih =>
    rw [List.cons_append, numberedFrom, numberedFrom, ih, List.length_cons, List.cons_append]
    congr 3
    omega

theorem map_text_numberedFrom (n : Nat) (ts : List Text) :
    (numberedFrom n ts).map (·.text) = ts.map Text.withoutLineEnd := by
  induction ts generalizing n with
  | nil => rfl
  | cons t ts ih => rw [numberedFrom, List.map_cons, List.map_cons, ih]

/-- A line has the number of lines before it on top of the first number. -/
theorem number_of_numberedFrom {ls ms : List Line} {l : Line}
    (h : numberedFrom n ts = ls ++ l :: ms) : l.number = n + ls.length := by
  induction ls generalizing n ts with
  | nil =>
    cases ts with
    | nil => cases h
    | cons t ts =>
      cases h
      rfl
  | cons k ls ih =>
    cases ts with
    | nil => cases h
    | cons t ts =>
      have := ih (List.cons.inj h).2
      rw [this, List.length_cons]
      omega

/-- **The number of a line** is its place in the listing, and its text is what stands there without
the line end. -/
theorem mem_numberedFrom {l : Line} : l ∈ numberedFrom n ts ↔
    n ≤ l.number ∧ ts[l.number - n]?.map Text.withoutLineEnd = some l.text := by
  induction ts generalizing n with
  | nil => simp [numberedFrom]
  | cons t ts ih =>
    rw [numberedFrom, List.mem_cons, ih]
    constructor
    · rintro (rfl | ⟨hn, hl⟩)
      · simp
      · refine ⟨by omega, ?_⟩
        have next : l.number - n = l.number - (n + 1) + 1 := by omega
        rw [next, List.getElem?_cons_succ, hl]
    · rintro ⟨hn, hl⟩
      rcases Nat.eq_or_lt_of_le hn with rfl | hlt
      · left
        rw [Nat.sub_self, List.getElem?_cons_zero, Option.map_some, Option.some_inj] at hl
        rw [hl]
      · have next : l.number - n = l.number - (n + 1) + 1 := by omega
        rw [next, List.getElem?_cons_succ] at hl
        exact .inr ⟨hlt, hl⟩

theorem pairwise_numberedFrom (n : Nat) (ts : List Text) :
    (numberedFrom n ts).Pairwise (·.number < ·.number) := by
  induction ts generalizing n with
  | nil => exact .nil
  | cons t ts ih => exact .cons (fun l hl => (mem_numberedFrom.mp hl).1) (ih (n + 1))

end Line

namespace Block

variable {ls ms : List Line} {l : Line} {b : Block} {before after : List Block}

/-- The line belongs to a block. -/
abbrev inBlock (l : Line) : Bool :=
  !l.isBlank

theorem ofLines_cons_of_isBlank (h : l.isBlank = true) : ofLines (l :: ls) = ofLines ls := by
  rw [ofLines, if_pos h]

theorem ofLines_cons_of_inBlock (h : inBlock l = true) :
    ofLines (l :: ls) = ⟨l, ls.takeWhile inBlock⟩ :: ofLines (ls.dropWhile inBlock) := by
  rw [ofLines, if_neg (by simpa using h)]

theorem inBlock_of_mem_run (hl : inBlock l = true) :
    ∀ k ∈ l :: ls.takeWhile inBlock, inBlock k = true :=
  List.forall_mem_cons.mpr ⟨hl, List.all_eq_true.mp List.all_takeWhile⟩

/-! ## Cutting a listing -/

/-- A block does not go on into these lines: they begin with a blank line, or are none. -/
def Ends (ls : List Line) : Prop :=
  ∀ l ∈ ls.head?, l.isBlank = true

theorem ends_cons : Ends (l :: ls) ↔ l.isBlank = true := by
  simp [Ends]

theorem ends_dropWhile (ls : List Line) : Ends (ls.dropWhile inBlock) := by
  intro l hl
  have h := List.head?_dropWhile_not inBlock ls
  rw [Option.mem_def.mp hl] at h
  simpa using h

theorem takeWhile_append_of_ends (h : Ends ms) :
    (ls ++ ms).takeWhile inBlock = ls.takeWhile inBlock := by
  have hms : ms.takeWhile inBlock = [] := by
    cases ms with
    | nil => rfl
    | cons l ms => simp [ends_cons.mp h]
  rw [List.takeWhile_append]
  split
  · rename_i hl
    rw [hms, List.append_nil]
    exact ((List.takeWhile_prefix inBlock).eq_of_length hl).symm
  · rfl

theorem dropWhile_append_of_ends (h : Ends ms) :
    (ls ++ ms).dropWhile inBlock = ls.dropWhile inBlock ++ ms := by
  have hms : ms.dropWhile inBlock = ms := by
    cases ms with
    | nil => rfl
    | cons l ms => simp [ends_cons.mp h]
  rw [List.dropWhile_append]
  split
  · rename_i hl
    rw [hms, List.isEmpty_iff.mp hl, List.nil_append]
  · rfl

/-- **A listing may be cut where a block has ended.** -/
theorem ofLines_append (ls : List Line) (h : Ends ms) :
    ofLines (ls ++ ms) = ofLines ls ++ ofLines ms := by
  -- block by block; the last one before the cut stops there
  induction ls using ofLines.induct with
  | case1 => simp [ofLines]
  | case2 l ls hl ih =>
    rw [List.cons_append, ofLines_cons_of_isBlank hl, ofLines_cons_of_isBlank hl, ih]
  | case3 l ls hl ih =>
    have hl : inBlock l = true := by simpa using hl
    rw [List.cons_append, ofLines_cons_of_inBlock hl, ofLines_cons_of_inBlock hl,
      takeWhile_append_of_ends h, dropWhile_append_of_ends h, ih, List.cons_append]

/-- **A run of lines that are not blank is a block.** -/
theorem ofLines_run (h : ∀ k ∈ l :: ls, inBlock k = true) : ofLines (l :: ls) = [⟨l, ls⟩] := by
  have hls : ∀ k ∈ ls, inBlock k = true := fun k hk => h k (List.mem_cons_of_mem l hk)
  have htake : ls.takeWhile inBlock = ls := by
    simpa using @List.takeWhile_append_of_pos _ inBlock ls [] hls
  have hdrop : ls.dropWhile inBlock = [] := by
    simpa using @List.dropWhile_append_of_pos _ inBlock ls [] hls
  rw [ofLines_cons_of_inBlock (h l List.mem_cons_self), htake, hdrop, ofLines]

/-- **Every block is a run of lines** that stands between the blocks before it and those after it.
What stands in its place does not bear on the blocks before it. -/
theorem ofLines_eq_append_cons (h : ofLines ls = before ++ b :: after) :
    ∃ xs ys, ls = xs ++ (b.header :: b.body ++ ys) ∧
      (∀ zs, ofLines (xs ++ zs) = before ++ ofLines zs) ∧
      (∀ k ∈ b.header :: b.body, inBlock k = true) ∧ Ends ys ∧ ofLines ys = after := by
  -- block by block, up to the one in question
  induction ls using ofLines.induct generalizing before with
  | case1 => simp [ofLines] at h
  | case2 l ls hl ih =>
    rw [ofLines_cons_of_isBlank hl] at h
    obtain ⟨xs, ys, rfl, hxs, hb, hys, hafter⟩ := ih h
    refine ⟨l :: xs, ys, rfl, fun zs => ?_, hb, hys, hafter⟩
    rw [List.cons_append, ofLines_cons_of_isBlank hl, hxs]
  | case3 l ls hl ih =>
    have hl : inBlock l = true := by simpa using hl
    have run : ∀ k ∈ l :: ls.takeWhile inBlock, inBlock k = true := inBlock_of_mem_run hl
    have split : l :: ls = l :: ls.takeWhile inBlock ++ ls.dropWhile inBlock := by
      rw [List.cons_append, List.takeWhile_append_dropWhile]
    rw [ofLines_cons_of_inBlock hl] at h
    cases before with
    | nil =>
      obtain ⟨rfl, rfl⟩ := List.cons.inj h
      exact ⟨[], _, split, fun zs => rfl, run, ends_dropWhile ls, rfl⟩
    | cons b₀ before =>
      obtain ⟨hb₀, hrest⟩ := List.cons.inj h
      subst hb₀
      obtain ⟨xs, ys, hls, hxs, hb, hys, hafter⟩ := ih hrest
      -- there is a line between this block and the one in question, and it is blank
      have ends : ∀ zs, Ends (xs ++ zs) := by
        intro zs
        have hd := hls ▸ ends_dropWhile ls
        cases xs with
        | nil => exact absurd (ends_cons.mp hd) (by simpa using hb b.header List.mem_cons_self)
        | cons x xs => exact ends_cons.mpr (ends_cons.mp hd)
      refine ⟨l :: ls.takeWhile inBlock ++ xs, ys, ?_, fun zs => ?_, hb, hys, hafter⟩
      · rw [List.append_assoc, ← hls, split]
      · rw [List.append_assoc, ofLines_append _ (ends zs), ofLines_run run, hxs]
        rfl

theorem header_mem (h : b ∈ ofLines ls) : b.header ∈ ls := by
  obtain ⟨before, after, h⟩ := List.append_of_mem h
  obtain ⟨xs, ys, rfl, -⟩ := ofLines_eq_append_cons h
  simp

/-! ## The lines of blocks -/

/-- The lines of a block. -/
def lines (b : Block) : List Line :=
  b.header :: b.body

/-- The blocks have the lines of a listing that are not blank, in their order. -/
theorem flatMap_lines_ofLines (ls : List Line) :
    (ofLines ls).flatMap lines = ls.filter inBlock := by
  induction ls using ofLines.induct with
  | case1 => rw [ofLines, List.flatMap_nil, List.filter_nil]
  | case2 l ls hl ih => rw [ofLines_cons_of_isBlank hl, ih, List.filter_cons_of_neg (by simp [hl])]
  | case3 l ls hl ih =>
    have hl : inBlock l = true := by simpa using hl
    have taken : (ls.takeWhile inBlock).filter inBlock = ls.takeWhile inBlock :=
      List.filter_eq_self.mpr (List.all_eq_true.mp List.all_takeWhile)
    have split : ls.filter inBlock =
        ls.takeWhile inBlock ++ (ls.dropWhile inBlock).filter inBlock := by
      rw [← taken, ← List.filter_append, List.takeWhile_append_dropWhile]
    rw [ofLines_cons_of_inBlock hl, List.flatMap_cons, ih, List.filter_cons_of_pos hl, split]
    rfl

/-- The longest runs of lines that are not blank. Before a run and after it the listing ends, or
there is a blank line. -/
inductive Runs : List Line → List Block → Prop
  | nil : Runs [] []
  | blank {l : Line} {ls : List Line} {bs : List Block} :
    l.isBlank = true → Runs ls bs → Runs (l :: ls) bs
  | run {b : Block} {ls : List Line} {bs : List Block} :
    (∀ k ∈ b.lines, k.isBlank = false) → Ends ls → Runs ls bs → Runs (b.lines ++ ls) (b :: bs)

/-- **The blocks of a listing are its runs**. -/
theorem runs_iff {bs : List Block} : Runs ls bs ↔ ofLines ls = bs := by
  constructor
  · intro h
    induction h with
    | nil => rw [ofLines]
    | blank hl _ ih => rw [ofLines_cons_of_isBlank hl, ih]
    | @run b ls bs hb hls _ ih =>
      have run : ofLines b.lines = [b] := ofLines_run (by simpa [lines] using hb)
      rw [ofLines_append _ hls, run, ih, List.singleton_append]
  · rintro rfl
    induction ls using ofLines.induct with
    | case1 =>
      rw [ofLines]
      exact .nil
    | case2 l ls hl ih =>
      rw [ofLines_cons_of_isBlank hl]
      exact .blank hl ih
    | case3 l ls hl ih =>
      have hl : inBlock l = true := by simpa using hl
      have run : ∀ k ∈ lines ⟨l, ls.takeWhile inBlock⟩, k.isBlank = false := fun k hk => by
        simpa using inBlock_of_mem_run hl k hk
      rw [ofLines_cons_of_inBlock hl]
      have runs := Runs.run run (ends_dropWhile ls) ih
      rwa [lines, List.cons_append, List.takeWhile_append_dropWhile] at runs

/-! ## Labels -/

theorem beforeLast?_append {c : Char} {v : Text} (hv : c ∉ v) (u : Text) :
    beforeLast? c (u ++ c :: v) = some u := by
  have past : ∀ d ∈ v.reverse, decide (d ≠ c) = true := fun d hd =>
    decide_eq_true fun heq => hv (heq ▸ List.mem_reverse.mp hd)
  have turned : (u ++ c :: v).reverse = v.reverse ++ c :: u.reverse := by simp
  rw [beforeLast?, if_pos (by simp), turned, List.dropWhile_append_of_pos past]
  simp

theorem beforeLast?_eq_none {c : Char} {t : Text} : beforeLast? c t = none ↔ c ∉ t := by
  simp [beforeLast?]

/-- **A text is cut** at the last occurrence of a character. -/
theorem beforeLast?_eq_some {c : Char} {t u : Text} :
    beforeLast? c t = some u ↔ ∃ v, t = u ++ c :: v ∧ c ∉ v := by
  constructor
  · intro h
    have hc : c ∈ t.reverse := by
      refine List.mem_reverse.mpr (Decidable.of_not_not fun hc => ?_)
      rw [beforeLast?_eq_none.mpr hc] at h
      cases h
    -- the last occurrence is the first one from the end
    obtain ⟨v, w, ht, hv⟩ := List.eq_append_cons_of_mem hc
    have ht : t = w.reverse ++ c :: v.reverse := by simpa using congrArg List.reverse ht
    have hv : c ∉ v.reverse := fun hmem => hv (List.mem_reverse.mp hmem)
    rw [ht, beforeLast?_append hv] at h
    exact ⟨v.reverse, Option.some.inj h ▸ ht, hv⟩
  · rintro ⟨v, rfl, hv⟩
    exact beforeLast?_append hv u

/-! ## Blocks without numbers -/

/-- The texts of the lines of a block. -/
def texts (b : Block) : List Text :=
  b.header.text :: b.body.map (·.text)

/-- How a listing splits into blocks does not depend on the numbers of its lines. -/
theorem map_texts_ofLines (h : ls.map (·.text) = ms.map (·.text)) :
    (ofLines ls).map texts = (ofLines ms).map texts := by
  induction ls using ofLines.induct generalizing ms with
  | case1 =>
    obtain rfl : ms = [] := by simpa using h.symm
    rfl
  | case2 l ls hl ih =>
    obtain ⟨m, ms, rfl, hm, h⟩ := List.map_eq_cons_iff.mp h.symm
    have hm : m.isBlank = true := by rw [← hl, Line.isBlank, Line.isBlank, hm]
    rw [ofLines_cons_of_isBlank hl, ofLines_cons_of_isBlank hm, ih h.symm]
  | case3 l ls hl ih =>
    obtain ⟨m, ms, rfl, hm, h⟩ := List.map_eq_cons_iff.mp h.symm
    have hl : inBlock l = true := by simpa using hl
    have hm' : inBlock m = true := by rw [← hl, inBlock, inBlock, Line.isBlank, Line.isBlank, hm]
    -- where a block ends can be told from the texts of the lines
    have taken : ∀ ks : List Line, (ks.takeWhile inBlock).map (·.text) =
        (ks.map (·.text)).takeWhile (!·.isBlank) := fun ks =>
      (List.takeWhile_map (p := fun t : Text => !t.isBlank)).symm
    have dropped : ∀ ks : List Line, (ks.dropWhile inBlock).map (·.text) =
        (ks.map (·.text)).dropWhile (!·.isBlank) := fun ks =>
      (List.dropWhile_map (p := fun t : Text => !t.isBlank)).symm
    have rest : (ofLines (ls.dropWhile inBlock)).map texts =
        (ofLines (ms.dropWhile inBlock)).map texts := ih (by rw [dropped, dropped, h])
    rw [ofLines_cons_of_inBlock hl, ofLines_cons_of_inBlock hm', List.map_cons, List.map_cons,
      texts, texts, taken, taken, h, hm, rest]

end Block

end DirectoryListing
