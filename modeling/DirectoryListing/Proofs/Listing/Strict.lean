import DirectoryListing.Listing.Source
import DirectoryListing.Proofs.Listing.Outcomes

/-!
# Strict reading

A listing breaks a rule where a header has no colon, where an entry line does not have the shape of
one, and where a block after the first comes with a label that is not awaited. A strict reading
accepts the listings that have a block and break no rule; in any other it stops at the first line
that breaks one.

A label is awaited from the block that announces it up to the next block that has it. This is told
of the blocks alone: the assembly has just the awaited labels among its announcements.

## Main definitions

* `Block.Labelled`, `Block.Announces`: the label of a block, and those that its entries announce
* `Listing.Awaited before l`: the label `l` is awaited after some blocks
* `Listing.Breaks`, `Listing.Wrong`: the lines that break a rule
* `Listing.IsFirst`: the first line with a property

## Main results

* `Assembly.Follows.add`: one more block
* `Assembly.Follows.addBlocks`: the first line of some blocks that breaks a rule
* `strict_result_iff`: what a strict reading comes to
-/

namespace DirectoryListing

/-! ## Labels -/

namespace Block

variable {b : Block} {l label : Text} {c : Listing.Content}

/-- The label of a block is what its header says before the last colon. -/
def Labelled (b : Block) (label : Text) : Prop :=
  ∃ rest, b.header.text = label ++ ':' :: rest ∧ ':' ∉ rest

/-- One of the entries of a block is a directory whose name, joined to the label of the block, makes
the given label. -/
def Announces (b : Block) (l : Text) : Prop :=
  ∃ label, b.Labelled label ∧ ∃ k ∈ b.entries, ∃ e,
    EntryLine.read? k.text = some (.directory, e) ∧ Path.join label e.name = l

theorem label?_eq_some : b.label? = some label ↔ b.Labelled label :=
  beforeLast?_eq_some

theorem Labelled.eq (h : b.Labelled l) (h' : b.Labelled label) : l = label :=
  Option.some.inj ((label?_eq_some.mpr h).symm.trans (label?_eq_some.mpr h'))

theorem Labelled.colon (h : b.Labelled label) : ':' ∈ b.header.text := by
  obtain ⟨rest, hheader, -⟩ := h
  simp [hheader]

theorem labelled_of_content? (h : b.content? = some c) : b.Labelled c.label :=
  label?_eq_some.mp (content?_eq_some.mp h).1

theorem labelled_iff (h : b.content? = some c) : b.Labelled l ↔ l = c.label := by
  constructor
  · exact fun hl => hl.eq (labelled_of_content? h)
  · rintro rfl
    exact labelled_of_content? h

theorem announces_iff (h : b.content? = some c) : b.Announces l ↔ l ∈ c.announced := by
  have announced : l ∈ c.announced ↔
      ∃ e, (Kind.directory, e) ∈ c.entries ∧ Path.join c.label e.name = l := by
    simp only [Listing.Content.announced, Listing.announced, List.mem_filterMap, Prod.exists]
    constructor
    · rintro ⟨_ | _, e, he, hl⟩
      · cases hl
      · exact ⟨e, he, Option.some.inj hl⟩
    · rintro ⟨e, he, hl⟩
      exact ⟨.directory, e, he, congrArg some hl⟩
  rw [announced]
  constructor
  · rintro ⟨label, hlabel, k, hk, e, he, hl⟩
    rw [(labelled_iff h).mp hlabel] at hl
    exact ⟨e, (mem_entries_iff h).mpr ⟨k, hk, he⟩, hl⟩
  · rintro ⟨e, he, hl⟩
    obtain ⟨k, hk, hread⟩ := (mem_entries_iff h).mp he
    exact ⟨c.label, labelled_of_content? h, k, hk, e, hread, hl⟩

end Block

namespace Listing

variable {before bs : List Block} {b : Block} {l label : Text} {k : Line} {r : Reason}

/-- A label is awaited: one of the blocks announces it, and no block since then has it. -/
def Awaited (before : List Block) (l : Text) : Prop :=
  ∃ bs b cs, before = bs ++ b :: cs ∧ b.Announces l ∧ ∀ c ∈ cs, ¬ c.Labelled l

theorem not_awaited_nil : ¬ Awaited [] l := by
  rintro ⟨bs, b, cs, h, -⟩
  simp at h

/-- **One more block** is awaited no longer, and its own announcements are. -/
theorem awaited_concat :
    Awaited (before ++ [b]) l ↔ b.Announces l ∨ ¬ b.Labelled l ∧ Awaited before l := by
  constructor
  · rintro ⟨bs, b', cs, heq, hb', hcs⟩
    rcases List.eq_nil_or_concat cs with rfl | ⟨ds, d, rfl⟩
    · obtain ⟨-, rfl⟩ : before = bs ∧ b = b' := by simpa using heq
      exact .inl hb'
    · rw [List.concat_eq_append, ← List.cons_append, ← List.append_assoc] at heq
      obtain ⟨hbefore, hd⟩ := List.append_inj' heq rfl
      obtain rfl : b = d := by simpa using hd
      rw [List.concat_eq_append, List.forall_mem_append] at hcs
      exact .inr ⟨hcs.2 b (List.mem_singleton_self b), bs, b', ds, hbefore, hb', hcs.1⟩
  · rintro (hb | ⟨hb, bs, b', cs, rfl, hb', hcs⟩)
    · exact ⟨before, b, [], rfl, hb, nofun⟩
    · refine ⟨bs, b', cs ++ [b], by simp, hb', ?_⟩
      exact List.forall_mem_append.mpr ⟨hcs, by simpa using hb⟩

/-! ## Lines that break a rule -/

/-- A line of a block breaks a rule, given the blocks before it. -/
inductive Breaks (before : List Block) (b : Block) : Line → Reason → Prop
  | header : ':' ∉ b.header.text → Breaks before b b.header .header
  | unknownDirectory {label : Text} : before ≠ [] → b.Labelled label → ¬ Awaited before label →
    Breaks before b b.header .unknownDirectory
  | shape {k : Line} : k ∈ b.entries → EntryLine.read? k.text = none → Breaks before b k .shape

/-- A line of some blocks breaks a rule, given the blocks before them. -/
def Wrong (before bs : List Block) (k : Line) (r : Reason) : Prop :=
  ∃ cs b ds, bs = cs ++ b :: ds ∧ Breaks (before ++ cs) b k r

/-- A line is the first with a property that concerns it and a reason. -/
def IsFirst (P : Line → Reason → Prop) (k : Line) (r : Reason) : Prop :=
  P k r ∧ ∀ k' r', P k' r' → (k' = k ∧ r' = r) ∨ k.number < k'.number

theorem IsFirst.eq {P : Line → Reason → Prop} {k' : Line} {r' : Reason} (h : IsFirst P k r)
    (h' : IsFirst P k' r') : k = k' ∧ r = r' := by
  rcases h.2 k' r' h'.1 with ⟨rfl, rfl⟩ | hlt
  · exact ⟨rfl, rfl⟩
  · rcases h'.2 k r h.1 with heq | hlt'
    · exact heq
    · omega

theorem not_wrong_nil : ¬ Wrong before [] k r := by
  rintro ⟨cs, b, ds, h, -⟩
  simp at h

theorem wrong_cons :
    Wrong before (b :: bs) k r ↔ Breaks before b k r ∨ Wrong (before ++ [b]) bs k r := by
  constructor
  · rintro ⟨cs, b', ds, heq, hk⟩
    cases cs with
    | nil =>
      obtain ⟨rfl, -⟩ := List.cons.inj heq
      exact .inl (by simpa using hk)
    | cons c cs =>
      obtain ⟨rfl, rfl⟩ := List.cons.inj heq
      exact .inr ⟨cs, b', ds, rfl, by simpa using hk⟩
  · rintro (hk | ⟨cs, b', ds, rfl, hk⟩)
    · exact ⟨[], b, bs, rfl, by simpa using hk⟩
    · exact ⟨b :: cs, b', ds, rfl, by simpa using hk⟩

theorem Breaks.mem (h : Breaks before b k r) : k ∈ b.lines := by
  cases h with
  | header => exact List.mem_cons_self
  | unknownDirectory => exact List.mem_cons_self
  | shape hk => exact List.mem_cons_of_mem _ (List.mem_of_mem_drop hk)

/-- The entry lines of a block come after its header. -/
theorem number_lt_of_mem_entries (hnumbers : b.lines.Pairwise (·.number < ·.number))
    (hk : k ∈ b.entries) : b.header.number < k.number :=
  (List.pairwise_cons.mp hnumbers).1 k (List.mem_of_mem_drop hk)

/-- A header that breaks a rule is the first line of its block that does. -/
theorem Breaks.isFirst (hnumbers : b.lines.Pairwise (·.number < ·.number))
    (h : Breaks before b b.header r) : IsFirst (Breaks before b) b.header r := by
  refine ⟨h, fun k' r' hk' => ?_⟩
  cases hk' with
  | shape hk' => exact .inr (number_lt_of_mem_entries hnumbers hk')
  -- a header breaks one rule only
  | header hcolon =>
    cases h with
    | header => exact .inl ⟨rfl, rfl⟩
    | unknownDirectory _ hlabel => exact absurd hlabel.colon hcolon
    | shape hk => exact absurd (number_lt_of_mem_entries hnumbers hk) (Nat.lt_irrefl _)
  | unknownDirectory _ hlabel =>
    cases h with
    | header hcolon => exact absurd hlabel.colon hcolon
    | unknownDirectory => exact .inl ⟨rfl, rfl⟩
    | shape hk => exact absurd (number_lt_of_mem_entries hnumbers hk) (Nat.lt_irrefl _)

/-- The first line that does not have the shape of an entry line is the first line of the block that
breaks a rule, when the header breaks none. -/
theorem isFirst_shape {xs ys : List Line} (hnumbers : b.lines.Pairwise (·.number < ·.number))
    (only : ∀ k r, Breaks before b k r → r = .shape) (hls : b.entries = xs ++ k :: ys)
    (hxs : ∀ x ∈ xs, EntryLine.read? x.text ≠ none) (hk : EntryLine.read? k.text = none) :
    IsFirst (Breaks before b) k .shape := by
  have order : (xs ++ k :: ys).Pairwise (·.number < ·.number) :=
    hls ▸ (List.pairwise_cons.mp hnumbers).2.sublist (List.drop_sublist 1 b.body)
  refine ⟨.shape (by simp [hls]) hk, fun k' r' hk' => ?_⟩
  obtain rfl := only k' r' hk'
  cases hk' with
  | shape hmem hread =>
    rw [hls, List.mem_append, List.mem_cons] at hmem
    -- it is not among the lines before, so it is this line or it comes after
    rcases hmem with hmem | rfl | hmem
    · exact absurd hread (hxs k' hmem)
    · exact .inl ⟨rfl, rfl⟩
    · exact .inr ((List.pairwise_cons.mp (List.pairwise_append.mp order).2.1).1 k' hmem)

theorem Wrong.mem (h : Wrong before bs k r) : k ∈ bs.flatMap Block.lines := by
  obtain ⟨cs, b, ds, rfl, hk⟩ := h
  exact List.mem_flatMap.mpr ⟨b, by simp, hk.mem⟩

/-! ## Reading one block -/

namespace Assembly

variable {a a' : Assembly} {c : Content} {e : Error}

/-- The assembly after some blocks: it has a tree once there is a block, and it has an announcement
for every awaited label and for no other. -/
structure Follows (a : Assembly) (before : List Block) : Prop where
  tree : a.tree = none ↔ before = []
  announced : ∀ l, (a.announced.lookup l).isSome = true ↔ Awaited before l

theorem follows_start : start.Follows [] where
  tree := iff_of_true rfl rfl
  announced _ := iff_of_false nofun not_awaited_nil

/-- A block is not refused when it is the first, or when its label is awaited. -/
theorem Follows.isSome_place? (h : a.Follows before) :
    (a.place? l).isSome = true ↔ before = [] ∨ Awaited before l := by
  rw [← h.tree, ← h.announced]
  rcases ht : a.tree with _ | t
  · simp [place?, ht]
  · simp [place?_of_tree ht]

/-- **One more block.** -/
theorem Follows.add (h : a.Follows before) (hb : b.content? = some c) :
    (a.add c).Follows (before ++ [b]) where
  tree := by
    refine iff_of_false (fun ht => ?_) (by simp)
    have := isSome_tree_add a c
    rw [ht] at this
    cases this
  announced l := by
    rw [awaited_concat, Block.announces_iff hb, Block.labelled_iff hb, ← h.announced]
    by_cases hl : l ∈ c.announced
    · obtain ⟨j, e, -, -, hj⟩ := lookup_add_of_mem hl
      simp [hj, hl]
    · rw [lookup_add_of_not_mem hl]
      split
      · rename_i hlabel
        exact iff_of_false nofun (not_or.mpr ⟨hl, fun h => h.1 hlabel⟩)
      · rename_i hlabel
        simp [hl, hlabel]

/-- A block that is read breaks no rule. -/
theorem Follows.not_breaks (h : a.Follows before) (hb : b.content? = some c)
    (hp : (a.place? c.label).isSome = true) : ¬ Breaks before b k r := by
  intro hk
  cases hk with
  | header hcolon => exact hcolon (Block.labelled_of_content? hb).colon
  | unknownDirectory hbefore hlabel hawaited =>
    obtain rfl := (Block.labelled_iff hb).mp hlabel
    exact (h.isSome_place?.mp hp).elim hbefore hawaited
  | shape hk hread =>
    have hmem := List.mem_map_of_mem (f := (EntryLine.read? ·.text)) hk
    rw [Block.map_read?_entries hb] at hmem
    simp [hread] at hmem

/-- **A block that is in error** is so at the first of its lines that breaks a rule. -/
theorem Follows.isFirst_of_addBlock (h : a.Follows before)
    (hnumbers : b.lines.Pairwise (·.number < ·.number)) (he : (a.addBlock true b).2 = .error e) :
    ∃ k r, e = .malformed k r ∧ IsFirst (Breaks before b) k r := by
  cases hb : b.label? with
  | none =>
    rw [addBlock, hb] at he
    cases he
    exact ⟨_, _, rfl, (Breaks.header (Block.beforeLast?_eq_none.mp hb)).isFirst hnumbers⟩
  | some label =>
    have hlabel := Block.label?_eq_some.mp hb
    by_cases hp : (a.place? label).isSome = true
    -- the block is not refused, so that one of its entry lines is wrong
    · obtain ⟨skipped, -, read⟩ := addBlock_of_label hb fun _ => hp
      rw [read] at he
      rcases hes : readEntries b.entries with e' | entries <;> rw [hes] at he <;> cases he
      obtain ⟨xs, k, ys, hls, hxs, hk, rfl⟩ := readEntries_eq_error hes
      have only : ∀ k r, Breaks before b k r → r = .shape := by
        intro k r hk
        cases hk with
        | header hcolon => exact absurd hlabel.colon hcolon
        | unknownDirectory hbefore hlabel' hawaited =>
          obtain rfl := hlabel.eq hlabel'
          exact ((h.isSome_place?.mp hp).elim hbefore hawaited).elim
        | shape => rfl
      exact ⟨k, .shape, rfl, isFirst_shape hnumbers only hls hxs hk⟩
    · obtain ⟨hbefore, hawaited⟩ := not_or.mp (mt h.isSome_place?.mpr hp)
      rw [addBlock_refused hb (Option.not_isSome_iff_eq_none.mp hp)] at he
      cases he
      exact ⟨_, _, rfl, (Breaks.unknownDirectory hbefore hlabel hawaited).isFirst hnumbers⟩

/-! ## Reading all blocks -/

/-- Blocks that are all read break no rule. -/
theorem Follows.of_addBlocks (h : a.Follows before) (hok : (a.addBlocks true bs).2 = .ok a') :
    a'.Follows (before ++ bs) ∧ ∀ k r, ¬ Wrong before bs k r := by
  induction bs generalizing a before with
  | nil =>
    cases hok
    exact ⟨by simpa using h, fun k r => not_wrong_nil⟩
  | cons b bs ih =>
    cases hb : (a.addBlock true b).2 with
    | error e =>
      rw [addBlocks_cons_of_error hb] at hok
      cases hok
    | ok a₁ =>
      rw [addBlocks_cons_of_ok hb] at hok
      obtain ⟨c, hc, hp, rfl⟩ := addBlock_eq_ok.mp hb
      obtain ⟨ha', hnone⟩ := ih (h.add hc) hok
      refine ⟨by simpa using ha', fun k r hk => ?_⟩
      rcases wrong_cons.mp hk with hk | hk
      · exact h.not_breaks hc (hp rfl) hk
      · exact hnone k r hk

/-- **Blocks that are in error** are so at the first of their lines that breaks a rule. -/
theorem Follows.addBlocks (h : a.Follows before)
    (hnumbers : (bs.flatMap Block.lines).Pairwise (·.number < ·.number))
    (he : (a.addBlocks true bs).2 = .error e) :
    ∃ k r, e = .malformed k r ∧ IsFirst (Wrong before bs) k r := by
  induction bs generalizing a before with
  | nil => cases he
  | cons b bs ih =>
    rw [List.flatMap_cons] at hnumbers
    obtain ⟨hfirst, hlater, hacross⟩ := List.pairwise_append.mp hnumbers
    cases hb : (a.addBlock true b).2 with
    | error e' =>
      -- all further lines come later
      rw [addBlocks_cons_of_error hb] at he
      cases he
      obtain ⟨k, r, rfl, hk, hmin⟩ := h.isFirst_of_addBlock hfirst hb
      refine ⟨k, r, rfl, wrong_cons.mpr (.inl hk), fun k' r' hk' => ?_⟩
      rcases wrong_cons.mp hk' with hk' | hk'
      · exact hmin k' r' hk'
      · exact .inr (hacross k hk.mem k' hk'.mem)
    | ok a₁ =>
      -- the first block breaks no rule
      rw [addBlocks_cons_of_ok hb] at he
      obtain ⟨c, hc, hp, rfl⟩ := addBlock_eq_ok.mp hb
      obtain ⟨k, r, rfl, hk, hmin⟩ := ih (h.add hc) hlater he
      refine ⟨k, r, rfl, wrong_cons.mpr (.inr hk), fun k' r' hk' => ?_⟩
      rcases wrong_cons.mp hk' with hk' | hk'
      · exact absurd hk' (h.not_breaks hc (hp rfl))
      · exact hmin k' r' hk'

end Assembly

/-! ## Whole listings -/

variable {lines : List Text} {t : Tree} {e : Error}

/-- The rules of strict reading: every header has a colon, every entry line has the shape of one,
and every block but the first comes with a label that is awaited. -/
structure Rules (bs : List Block) : Prop where
  header : ∀ b ∈ bs, ':' ∈ b.header.text
  shape : ∀ b ∈ bs, ∀ k ∈ b.entries, EntryLine.read? k.text ≠ none
  awaited : ∀ before b after l, bs = before ++ b :: after → before ≠ [] → b.Labelled l →
    Awaited before l

/-- The rules hold of the blocks of which no line breaks one. -/
theorem rules_iff : Rules bs ↔ ∀ k r, ¬ Wrong [] bs k r := by
  constructor
  · rintro h k r ⟨before, b, after, heq, hk⟩
    have mem : b ∈ bs := by simp [heq]
    rw [List.nil_append] at hk
    cases hk with
    | header hcolon => exact hcolon (h.header b mem)
    | unknownDirectory hbefore hlabel hawaited =>
      exact hawaited (h.awaited before b after _ heq hbefore hlabel)
    | shape hk hread => exact h.shape b mem k hk hread
  · intro h
    constructor
    · intro b hb
      obtain ⟨before, after, heq⟩ := List.append_of_mem hb
      exact Decidable.of_not_not fun hcolon =>
        h b.header .header ⟨before, b, after, heq, .header hcolon⟩
    · intro b hb k hk hread
      obtain ⟨before, after, heq⟩ := List.append_of_mem hb
      exact h k .shape ⟨before, b, after, heq, .shape hk hread⟩
    · intro before b after l heq hbefore hlabel
      exact Classical.byContradiction fun hawaited => h b.header .unknownDirectory
        ⟨before, b, after, heq, .unknownDirectory hbefore hlabel hawaited⟩

/-- The lines of the blocks come in the order of their numbers. -/
theorem pairwise_blocks (lines : List Text) :
    ((blocks lines).flatMap Block.lines).Pairwise (·.number < ·.number) := by
  rw [Block.flatMap_lines_ofLines]
  exact (Line.pairwise_numberedFrom 1 lines).filter _

/-- A listing with a tree has a block, and breaks no rule. -/
theorem rules_of_parse (h : (parse true lines).result = .ok t) :
    blocks lines ≠ [] ∧ Rules (blocks lines) := by
  obtain ⟨a, ha, -⟩ := parse_iff_addBlocks.mp h
  refine ⟨fun hnil => ?_, rules_iff.mpr (Assembly.follows_start.of_addBlocks ha).2⟩
  rw [parse_eq_empty_iff.mpr hnil] at h
  cases h

/-- A listing without a tree has no block, or has a first line that breaks a rule. -/
theorem error_of_parse (h : (parse true lines).result = .error e) :
    (blocks lines = [] ∧ e = .empty) ∨
      ∃ k r, e = .malformed k r ∧ IsFirst (Wrong [] (blocks lines)) k r := by
  cases e with
  | malformed k r =>
    right
    exact Assembly.follows_start.addBlocks (pairwise_blocks lines) (parse_eq_malformed_iff.mp h)
  | empty => exact .inl ⟨parse_eq_empty_iff.mp h, rfl⟩

theorem parse_eq_ok_iff :
    (∃ t, (parse true lines).result = .ok t) ↔ blocks lines ≠ [] ∧ Rules (blocks lines) := by
  constructor
  · rintro ⟨t, ht⟩
    exact rules_of_parse ht
  · rintro ⟨hne, hrules⟩
    rcases h : (parse true lines).result with e | t
    · rcases error_of_parse h with ⟨hnil, -⟩ | ⟨k, r, -, hk, -⟩
      · exact absurd hnil hne
      · exact absurd hk (rules_iff.mp hrules k r)
    · exact ⟨t, rfl⟩

theorem parse_eq_error_iff : (parse true lines).result = .error e ↔
    (blocks lines = [] ∧ e = .empty) ∨
      ∃ k r, e = .malformed k r ∧ IsFirst (Wrong [] (blocks lines)) k r := by
  refine ⟨error_of_parse, fun he => ?_⟩
  -- without a block there is no line that breaks a rule
  have exclusive : blocks lines = [] → ∀ k r, ¬ Wrong [] (blocks lines) k r := by
    intro hnil k r
    rw [hnil]
    exact not_wrong_nil
  rcases h : (parse true lines).result with e' | t
  · rcases error_of_parse h with ⟨hnil, rfl⟩ | ⟨k, r, rfl, hk⟩
    · rcases he with ⟨-, rfl⟩ | ⟨k, r, -, hk⟩
      · rfl
      · exact absurd hk.1 (exclusive hnil k r)
    · rcases he with ⟨hnil, -⟩ | ⟨k', r', rfl, hk'⟩
      · exact absurd hk.1 (exclusive hnil k r)
      · obtain ⟨rfl, rfl⟩ := hk.eq hk'
        rfl
  · obtain ⟨hne, hrules⟩ := rules_of_parse h
    rcases he with ⟨hnil, -⟩ | ⟨k, r, -, hk⟩
    · exact absurd hnil hne
    · exact absurd hk.1 (rules_iff.mp hrules k r)

theorem loaded_eq_ok {o : Outcome} : o.loaded.result = .ok t ↔ o.result = .ok t := by
  obtain ⟨e | u, notes⟩ := o
  · exact iff_of_false nofun nofun
  · constructor <;> intro h <;> cases h <;> rfl

theorem loaded_eq_error {o : Outcome} {f : Fault} :
    o.loaded.result = .error f ↔ ∃ e, o.result = .error e ∧ e.fault = f := by
  obtain ⟨e | u, notes⟩ := o
  · constructor
    · intro h
      exact ⟨e, rfl, Except.error.inj h⟩
    · rintro ⟨e', he, rfl⟩
      cases he
      rfl
  · refine iff_of_false nofun ?_
    rintro ⟨e, he, -⟩
    cases he

/-- **Strict reading** accepts the listings that have a block and keep the rules. Of any other
listing it tells that it is empty, or the first line that breaks a rule, with its number in the
listing and the reason. -/
theorem strict_result_iff (lines : List Text) :
    Block.Runs (Line.numbered lines) (blocks lines) ∧
      ((∃ t, (parse true lines).loaded.result = .ok t) ↔
        blocks lines ≠ [] ∧ Rules (blocks lines)) ∧
      (∀ f, (parse true lines).loaded.result = .error f ↔
        (blocks lines = [] ∧ f = .emptyListing Fault.emptyListingMessage) ∨
          ∃ k r, IsFirst (Wrong [] (blocks lines)) k r ∧
            f = .malformedLine k.text (some k.number) r.text) ∧
      ∀ k r, Wrong [] (blocks lines) k r →
        1 ≤ k.number ∧ lines[k.number - 1]?.map Text.withoutLineEnd = some k.text := by
  refine ⟨Block.runs_iff.mpr rfl, ?_, fun f => ?_, fun k r hk => getElem?_of_mem_blocks hk.mem⟩
  · simp only [loaded_eq_ok, parse_eq_ok_iff]
  · simp only [loaded_eq_error, parse_eq_error_iff]
    constructor
    · rintro ⟨e, ⟨hnil, rfl⟩ | ⟨k, r, rfl, hk⟩, rfl⟩
      · exact .inl ⟨hnil, rfl⟩
      · exact .inr ⟨k, r, hk, rfl⟩
    · rintro (⟨hnil, rfl⟩ | ⟨k, r, hk, rfl⟩)
      · exact ⟨.empty, .inl ⟨hnil, rfl⟩, rfl⟩
      · exact ⟨.malformed k r, .inr ⟨k, r, rfl, hk⟩, rfl⟩

end Listing

end DirectoryListing
