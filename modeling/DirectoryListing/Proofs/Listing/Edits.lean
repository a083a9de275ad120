import DirectoryListing.Proofs.Listing.Outcomes
import DirectoryListing.Proofs.Listing.Renumbering
import DirectoryListing.Proofs.Text.LineEnds

/-!
# Edits of the layout

A listing may be laid out in another way: blank lines are inserted where the blocks stay as they
are, blank lines are deleted if another one still separates the blocks around them, and lines get
longer ends. The listing comes to the same, but for the numbers of its lines.

The two layouts are read side by side. At each line that is not blank, either both readings are
inside a block or both are between blocks: an inserted or deleted line in front of it would
otherwise have cut or joined blocks.

## Main definitions

* `Listing.Edit`: what happens to one line
* `Listing.Edit.before es`, `Listing.Edit.after es`: the lines before and after some edits
* `Listing.Edit.KeepLayout es`: the edits keep the blocks apart and whole
* `Listing.Edit.newNumber es n`: the number after the edits of the line with number `n`
* `Block.Relaid f s s' ls ms`: the two layouts side by side

## Main results

* `Block.Relaid.ofLines_eq`: two layouts of the same blocks
* `Listing.Edit.parse_after`: a listing in another layout
-/

namespace DirectoryListing

/-! ## Two layouts side by side -/

namespace Block

variable {f : Nat → Nat} {s s' : Bool} {l : Line} {ls ms : List Line}

/-- Two layouts of the same lines, whose numbers go over into each other. The reading of each is
inside a block or not; both are where they agree on a line. -/
inductive Relaid (f : Nat → Nat) : Bool → Bool → List Line → List Line → Prop
  | nil {s s' : Bool} : Relaid f s s' [] []
  | line {s : Bool} {l : Line} {ls ms : List Line} :
    inBlock l = true → Relaid f true true ls ms → Relaid f s s (l :: ls) (l.renumber f :: ms)
  | left {s s' : Bool} {l : Line} {ls ms : List Line} :
    l.isBlank = true → Relaid f false s' ls ms → Relaid f s s' (l :: ls) ms
  | right {s s' : Bool} {l : Line} {ls ms : List Line} :
    l.isBlank = true → Relaid f s false ls ms → Relaid f s s' ls (l :: ms)

/-- What the lines add to the block that the reading is in. -/
def inside (s : Bool) (ls : List Line) : List Line :=
  if s then ls.takeWhile inBlock else []

/-- The blocks after the one that the reading is in. -/
def later (s : Bool) (ls : List Line) : List Block :=
  ofLines (if s then ls.dropWhile inBlock else ls)

theorem inside_cons_of_isBlank (h : l.isBlank = true) (s : Bool) : inside s (l :: ls) = [] := by
  cases s <;> simp [inside, h]

theorem later_cons_of_isBlank (h : l.isBlank = true) (s : Bool) :
    later s (l :: ls) = later false ls := by
  have hl : inBlock l = false := by simp [h]
  cases s <;> simp [later, hl, ofLines_cons_of_isBlank h]

/-- **Two layouts of the same blocks**: what they add to an open block, and the blocks after it. -/
theorem Relaid.inside_and_later (h : Relaid f s s' ls ms) :
    inside s' ms = (inside s ls).map (·.renumber f) ∧
      later s' ms = (later s ls).map (·.renumber f) := by
  induction h with
  | @nil s s' => cases s <;> cases s' <;> simp [inside, later, ofLines]
  | @line s l ls ms hl _ ih =>
    obtain ⟨hinside, hlater⟩ := ih
    have hm : inBlock (l.renumber f) = true := hl
    simp only [inside, later, if_true] at hinside hlater
    cases s with
    | true => simp [inside, later, hl, hm, hinside, hlater]
    | false =>
      -- the line opens a block in both layouts
      simp [inside, later, ofLines_cons_of_inBlock hl, ofLines_cons_of_inBlock hm, hinside,
        hlater, renumber]
  | @left s s' l ls ms hl _ ih =>
    rw [inside_cons_of_isBlank hl, later_cons_of_isBlank hl]
    exact ih
  | @right s s' l ls ms hl _ ih =>
    rw [inside_cons_of_isBlank hl, later_cons_of_isBlank hl]
    exact ih

theorem Relaid.ofLines_eq (h : Relaid f false false ls ms) :
    ofLines ms = (ofLines ls).map (·.renumber f) :=
  h.inside_and_later.2

end Block

/-! ## Edits -/

namespace Listing

/-- What happens to one line: it stays, with some more characters at its end; or it is a line that
was not there; or it goes. -/
inductive Edit where
  | keep (line ends : Text)
  | insert (line : Text)
  | delete (line : Text)
  deriving DecidableEq, Repr

namespace Edit

/-- The line before the edit, if there is one. -/
def before? : Edit → Option Text
  | keep line _ => some line
  | insert _ => none
  | delete line => some line

/-- The line after the edit, if there is one. -/
def after? : Edit → Option Text
  | keep line ends => some (line ++ ends)
  | insert line => some line
  | delete _ => none

/-- The lines before some edits. -/
def before (es : List Edit) : List Text := es.filterMap before?

/-- The lines after some edits. -/
def after (es : List Edit) : List Text := es.filterMap after?

/-- How many lines are inserted. -/
def insertions (es : List Edit) : Nat := es.countP (·.before?.isNone)

/-- How many lines are deleted. -/
def deletions (es : List Edit) : Nat := es.countP (·.after?.isNone)

/-- Between these lines a blank line does not matter: before the first line that is not blank, after
the last one, or next to another blank line. -/
def Spare (xs ys : List Text) : Prop :=
  (∀ t ∈ xs, t.isBlank = true) ∨ (∀ t ∈ ys, t.isBlank = true) ∨
    (∃ t ∈ xs.getLast?, t.isBlank = true) ∨ ∃ t ∈ ys.head?, t.isBlank = true

instance (xs ys : List Text) : Decidable (Spare xs ys) :=
  inferInstanceAs (Decidable (_ ∨ _ ∨ _ ∨ _))

/-- An edit between others keeps the blocks apart and whole: what a line gets at its end are
carriage returns and line feeds, and a line that is inserted or deleted is blank and does not matter
where it stands, which for a deleted line is seen from the lines that remain. -/
def Allowed (pre : List Edit) (e : Edit) (post : List Edit) : Prop :=
  match e with
  | keep _ ends => ∀ c ∈ ends, Text.isLineEnd c = true
  | insert line => line.isBlank = true ∧ Spare (before pre) (before post)
  | delete line => line.isBlank = true ∧ Spare (after pre) (after post)

instance (pre : List Edit) (e : Edit) (post : List Edit) : Decidable (Allowed pre e post) :=
  match e with
  | keep _ ends => List.decidableBAll (Text.isLineEnd · = true) ends
  | insert _ | delete _ => inferInstanceAs (Decidable (_ ∧ _))

/-- The edits keep the blocks apart and whole. -/
def KeepLayout (es : List Edit) : Prop :=
  ∀ pre e post, es = pre ++ e :: post → Allowed pre e post

theorem keepLayout_iff {es : List Edit} : KeepLayout es ↔
    ∀ i (h : i < es.length), Allowed (es.take i) es[i] (es.drop (i + 1)) := by
  constructor
  · intro h i hi
    exact h _ _ _ (by simp)
  · rintro h pre e post rfl
    simpa using h pre.length (by simp)

instance (es : List Edit) : Decidable (KeepLayout es) :=
  @decidable_of_iff' _ _ keepLayout_iff (Nat.decidableBallLT es.length _)

/-- The place after the edits of the line at a place, counted from zero. -/
def newPlace : List Edit → Nat → Nat
  | [], i => i
  | keep .. :: _, 0 => 0
  | keep .. :: es, i + 1 => newPlace es i + 1
  | insert _ :: es, i => newPlace es i + 1
  | delete _ :: _, 0 => 0
  | delete _ :: es, i + 1 => newPlace es i

/-- The number after the edits of the line with a number. -/
def newNumber (es : List Edit) (n : Nat) : Nat := newPlace es (n - 1) + 1

variable {e : Edit} {es pre post : List Edit} {line ends : Text} {xs ys : List Text}

theorem before_cons (e : Edit) (es : List Edit) :
    before (e :: es) = e.before?.toList ++ before es := by
  cases e <;> rfl

theorem after_cons (e : Edit) (es : List Edit) : after (e :: es) = e.after?.toList ++ after es := by
  cases e <;> rfl

theorem before_append (pre post : List Edit) : before (pre ++ post) = before pre ++ before post :=
  List.filterMap_append

theorem after_append (pre post : List Edit) : after (pre ++ post) = after pre ++ after post :=
  List.filterMap_append

/-! ## Numbers -/

/-- A line that stays has the lines after the edits before it that are still there. -/
theorem newPlace_append_keep (pre : List Edit) (line ends : Text) (post : List Edit) :
    newPlace (pre ++ .keep line ends :: post) (before pre).length = (after pre).length := by
  induction pre with
  | nil => rfl
  | cons e pre ih => cases e <;> simpa [before_cons, after_cons, before?, after?, newPlace] using ih

theorem newNumber_append_keep (pre : List Edit) (line ends : Text) (post : List Edit) :
    newNumber (pre ++ .keep line ends :: post) ((before pre).length + 1) =
      (after pre).length + 1 :=
  congrArg (· + 1) (newPlace_append_keep pre line ends post)

theorem length_after_add_deletions (es : List Edit) :
    (after es).length + deletions es = (before es).length + insertions es := by
  induction es with
  | nil => rfl
  | cons e es ih =>
    rw [after_cons, before_cons, insertions, deletions, List.countP_cons, List.countP_cons,
      ← insertions, ← deletions, List.length_append, List.length_append]
    cases e <;> simp [before?, after?] <;> omega

/-! ## Blocks -/

/-- The lines end inside a block. -/
def endsInside (ts : List Text) : Bool := ts.getLast?.any (!·.isBlank)

theorem endsInside_append_singleton (ts : List Text) (t : Text) :
    endsInside (ts ++ [t]) = !t.isBlank := by
  simp [endsInside]

/-- A blank line that does not matter between these lines does not stand between a line of a block
and another one. -/
theorem Spare.endsInside_eq_false (h : Spare xs (line :: ys)) (hl : line.isBlank = false) :
    endsInside xs = false := by
  cases hx : xs.getLast? with
  | none => rw [endsInside, hx, Option.any_none]
  | some t =>
    have blank : t.isBlank = true := by
      rcases h with h | h | ⟨u, hu, hblank⟩ | ⟨u, hu, hblank⟩
      · exact h t (List.mem_of_getLast? hx)
      · exact absurd (h line List.mem_cons_self) (by simp [hl])
      · rw [hx] at hu
        cases hu
        exact hblank
      · cases hu
        exact absurd hblank (by simp [hl])
    simp [endsInside, hx, blank]

/-- **In front of a line that stays and is not blank**, both layouts are inside a block, or
neither is. -/
theorem KeepLayout.endsInside_eq (h : KeepLayout (pre ++ .keep line ends :: post))
    (hl : line.isBlank = false) : endsInside (before pre) = endsInside (after pre) := by
  -- by the last edit before the line
  rcases pre.eq_nil_or_concat with rfl | ⟨pre, e, hpre⟩
  · rfl
  rw [List.concat_eq_append] at hpre
  subst hpre
  have hline : (line ++ ends).isBlank = false := by
    rw [Text.isBlank_append_ends (h (pre ++ [e]) (.keep line ends) post rfl), hl]
  cases e with
  | keep t ends' =>
    have hends := h pre (.keep t ends') (.keep line ends :: post) (by simp)
    have hbefore : before (pre ++ [.keep t ends']) = before pre ++ [t] := before_append _ _
    have hafter : after (pre ++ [.keep t ends']) = after pre ++ [t ++ ends'] := after_append _ _
    rw [hbefore, hafter, endsInside_append_singleton, endsInside_append_singleton,
      Text.isBlank_append_ends hends]
  | insert t =>
    obtain ⟨ht, hspare⟩ := h pre (.insert t) (.keep line ends :: post) (by simp)
    have hafter : after (pre ++ [.insert t]) = after pre ++ [t] := after_append _ _
    have hbefore : before (pre ++ [.insert t]) = before pre := by simp [before, before?]
    rw [hafter, hbefore, endsInside_append_singleton, ht]
    exact hspare.endsInside_eq_false hl
  | delete t =>
    obtain ⟨ht, hspare⟩ := h pre (.delete t) (.keep line ends :: post) (by simp)
    have hafter : after (pre ++ [.delete t]) = after pre := by simp [after, after?]
    have hbefore : before (pre ++ [.delete t]) = before pre ++ [t] := before_append _ _
    rw [hafter, hbefore, endsInside_append_singleton, ht]
    exact (hspare.endsInside_eq_false hline).symm

/-- The two layouts side by side from some edit on. -/
theorem KeepLayout.relaid (h : KeepLayout es) (pre : List Edit) (hes : es = pre ++ post) :
    Block.Relaid (newNumber es) (endsInside (before pre)) (endsInside (after pre))
      (Line.numberedFrom ((before pre).length + 1) (before post))
      (Line.numberedFrom ((after pre).length + 1) (after post)) := by
  induction post generalizing pre with
  | nil => exact .nil
  | cons e post ih =>
    have rest := ih (pre ++ [e]) (by simp [hes])
    rw [before_append, after_append] at rest
    cases e with
    | keep line ends =>
      have hends := h pre (.keep line ends) post hes
      have hbefore : before [keep line ends] = [line] := rfl
      have hafter : after [keep line ends] = [line ++ ends] := rfl
      rw [hbefore, hafter, endsInside_append_singleton, endsInside_append_singleton,
        List.length_append, List.length_append, Text.isBlank_append_ends hends] at rest
      rw [before_cons, after_cons]
      cases hl : line.isBlank with
      | true =>
        rw [hl] at rest
        refine .left ?_ (.right ?_ rest)
        · rwa [Line.isBlank, Text.isBlank_withoutLineEnd]
        · rwa [Line.isBlank, Text.isBlank_withoutLineEnd, Text.isBlank_append_ends hends]
      | false =>
        have number : newNumber es ((before pre).length + 1) = (after pre).length + 1 :=
          hes ▸ newNumber_append_keep pre line ends post
        have same : Line.renumber (newNumber es)
            ⟨(before pre).length + 1, line.withoutLineEnd⟩ =
              ⟨(after pre).length + 1, (line ++ ends).withoutLineEnd⟩ := by
          rw [Line.renumber, number, Text.withoutLineEnd_append_ends hends]
        have state : endsInside (before pre) = endsInside (after pre) := by
          rw [hes] at h
          exact h.endsInside_eq hl
        have inBlock : Block.inBlock ⟨(before pre).length + 1, line.withoutLineEnd⟩ = true := by
          simp [Line.isBlank, Text.isBlank_withoutLineEnd, hl]
        rw [hl] at rest
        rw [state]
        have step := @Block.Relaid.line _ (endsInside (after pre)) _ _ _ inBlock rest
        rwa [same] at step
    | insert line =>
      obtain ⟨hl, -⟩ := h pre (.insert line) post hes
      have hbefore : before [insert line] = [] := rfl
      have hafter : after [insert line] = [line] := rfl
      rw [hbefore, List.append_nil, hafter, endsInside_append_singleton, hl,
        List.length_append] at rest
      rw [before_cons, after_cons]
      refine .right ?_ rest
      rwa [Line.isBlank, Text.isBlank_withoutLineEnd]
    | delete line =>
      obtain ⟨hl, -⟩ := h pre (.delete line) post hes
      have hbefore : before [delete line] = [line] := rfl
      have hafter : after [delete line] = [] := rfl
      rw [hafter, List.append_nil, hbefore, endsInside_append_singleton, hl,
        List.length_append] at rest
      rw [before_cons, after_cons]
      refine .left ?_ rest
      rwa [Line.isBlank, Text.isBlank_withoutLineEnd]

/-- The blocks in the other layout. -/
theorem KeepLayout.blocks_after (h : KeepLayout es) :
    blocks (after es) = (blocks (before es)).map (·.renumber (newNumber es)) :=
  (h.relaid [] rfl).ofLines_eq

/-- A line of a block is one that stays. -/
theorem KeepLayout.exists_keep (h : KeepLayout es) (pre : List Edit) (hes : es = pre ++ post)
    {l : Line}
    (hl : l ∈ Line.numberedFrom ((before pre).length + 1) (before post))
    (hblank : l.isBlank = false) :
    ∃ pre line ends post, es = pre ++ .keep line ends :: post ∧
      l = ⟨(before pre).length + 1, line.withoutLineEnd⟩ := by
  induction post generalizing pre with
  | nil => cases hl
  | cons e post ih =>
    have next := ih (pre ++ [e]) (by simp [hes])
    rw [before_append, List.length_append] at next
    rw [before_cons] at hl
    cases e with
    | keep line ends =>
      rcases List.mem_cons.mp hl with rfl | hl
      · exact ⟨pre, line, ends, post, hes, rfl⟩
      · exact next hl
    | insert line => exact next hl
    | delete line =>
      rcases List.mem_cons.mp hl with rfl | hl
      · -- a deleted line is blank
        obtain ⟨hline, -⟩ := h pre (.delete line) post hes
        rw [Line.isBlank, Text.isBlank_withoutLineEnd, hline] at hblank
        cases hblank
      · exact next hl

/-- **A listing in another layout** comes to the same tree, or to the same error at the same line;
so do the notes. Only the numbers of the lines that stay are others, by the lines that were inserted
or deleted before them. -/
theorem parse_after (h : KeepLayout es) (strict : Bool) :
    parse strict (after es) = (parse strict (before es)).renumber (newNumber es) ∧
      (∀ l r, (parse strict (before es)).result = .error (.malformed l r) →
        ∃ pre line ends post, es = pre ++ .keep line ends :: post ∧
          l = ⟨(before pre).length + 1, line.withoutLineEnd⟩) ∧
      ∀ pre line ends post, es = pre ++ .keep line ends :: post →
        newNumber es ((before pre).length + 1) + deletions pre =
          (before pre).length + 1 + insertions pre := by
  refine ⟨parse_eq_renumber h.blocks_after strict, fun l r hr => ?_, ?_⟩
  · have hl := mem_of_parse_eq_malformed hr
    rw [Block.flatMap_lines_ofLines, List.mem_filter] at hl
    exact h.exists_keep [] rfl hl.1 (by simpa using hl.2)
  · rintro pre line ends post rfl
    rw [newNumber_append_keep]
    have := length_after_add_deletions pre
    omega

/-- Blank lines before, after and between the blocks come and go, and a line gets another end. The
last line of the listing is wrong. -/
def relaid : List Edit := [
  .insert [' '], .keep ".:".toList ['\r', '\n'], .keep "total 0".toList [], .delete [],
  .keep ['\t'] ['\n'], .insert [], .keep ['?', ':'] [], .delete []]

theorem parse_after_relaid :
    KeepLayout relaid ∧
      (parse true (before relaid)).result = .error (.malformed ⟨5, ['?', ':']⟩ .unknownDirectory) ∧
      (parse true (after relaid)).result = .error (.malformed ⟨6, ['?', ':']⟩ .unknownDirectory) ∧
      newNumber relaid 5 + 1 = 5 + 2 := by
  have layout : KeepLayout relaid := by decide +kernel
  have wrong : (parse true (before relaid)).result =
      .error (.malformed ⟨5, ['?', ':']⟩ .unknownDirectory) := by decide +kernel
  obtain ⟨same, -, numbers⟩ := parse_after layout true
  refine ⟨layout, wrong, ?_, numbers (relaid.take 6) ['?', ':'] [] [.delete []] rfl⟩
  rw [same, Outcome.renumber, wrong]
  rfl

end Edit

end Listing

end DirectoryListing
