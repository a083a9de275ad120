import DirectoryListing.Proofs.Listing.Entries
import DirectoryListing.Proofs.Shell.Failures

/-!
# The notice of an open escape

A line that ends in a backslash has no words, and the shell says so in a notice of its own. Nothing
else that a shell prints starts with the same line. The texts of the other failures differ from it
within a few characters; the path of a directory starts with a slash; no line of a listing starts
with it, since the second field of an entry is a number. Only a search can print it, where a file or
directory has the notice for a name.

## Main definitions

* `Shell.notice`: what a shell says of a line that ends in a backslash

## Main results

* `Shell.Answers.apart_message`: the text of a failure differs from the notice
* `Shell.Answers.not_notice_prefix_output`: what a command prints starts with another line
-/

namespace DirectoryListing

/-! ## Entry lines -/

/-- The second field of an entry line is a link count. -/
theorem EntryLine.isCount_of_read? {line : Text} {x : Kind × Entry} (h : read? line = some x) :
    isCount (Field.first (Field.first line).2).1.text = true := by
  unfold read? at h
  split at h
  · next hcut =>
    simp only [cut, Prod.mk.injEq, List.cons.injEq] at hcut
    obtain ⟨⟨-, rfl, -⟩, -⟩ := hcut
    split at h
    · next hc =>
      simp only [Bool.and_eq_true] at hc
      exact hc.1.1.1.2
    · cases h
  · cases h

namespace Shell

variable {s s' : Shell} {t : Tree} {n : Node} {line output name : Text} {words found : List Text}
  {e : Failure}

/-- What a shell says of a line that ends in a backslash. -/
def notice : Text := (Failure.words .openEscape).message

theorem not_mem_notice : '\n' ∉ notice := not_mem_message_words .openEscape

/-- The notice is no prefix of an entry line: its second word is no number. -/
theorem not_notice_prefix_line {kind : Kind} {e : Entry} (h : Listing.IsRead kind e) :
    ¬ notice <+: e.line := by
  rintro ⟨x, hx⟩
  rcases h with rfl | h
  · cases hx
  · rw [← hx] at h
    have hcount : EntryLine.isCount "command".toList ≠ true := by decide
    exact hcount (EntryLine.isCount_of_read? h)

/-! ## Failures -/

theorem apart_step (err : Node.StepError) : notice.Apart (Failure.step err).message := by
  cases err with
  | unknownEntry x =>
    have h : notice.Apart "no such file or directory - ".toList := by decide
    exact h.append x
  | notDirectory x path =>
    have h : notice.Apart "not a directory - ".toList := by decide
    exact (((h.append x).append _).append path).append _

theorem apart_query (err : Query.Error) : notice.Apart (Failure.query err).message := by
  cases err with
  | unexpectedEnd =>
    show notice.Apart "unexpected end of expression".toList
    decide
  | unknownToken token =>
    have h : notice.Apart "unknown expression - ".toList := by decide
    exact h.append token
  | missingArgument test =>
    have h : notice.Apart "missing argument to ".toList := by decide
    exact h.append test
  | badKind token =>
    have h : notice.Apart "invalid argument for -type - ".toList := by decide
    exact h.append token
  | badSize token =>
    have h : notice.Apart "invalid argument for -size - ".toList := by decide
    exact h.append token
  | unclosed found =>
    show notice.Apart "unbalanced parentheses - missing )".toList
    decide
  | unopened token =>
    have h : notice.Apart "unbalanced parentheses - unexpected ".toList := by decide
    exact h.append token

/-- **The text of any failure of a command** differs from the notice, and not by its length only. -/
theorem Answers.apart_message (h : Answers s words s' output (some e)) :
    notice.Apart e.message := by
  cases h with
  | @unknown name _ _ =>
    have h : notice.Apart "no such command - ".toList := by decide
    exact h.append name
  | @file _ path _ _ _ _ _ =>
    have h : notice.Apart "not a directory - ".toList := by decide
    exact h.append path
  | nowhere _ _ => exact apart_step _
  | unread _ _ => exact apart_query _

/-! ## Output -/

theorem asLine_append (x u : Text) : asLine x ++ u = x ++ '\n' :: u := by
  rw [asLine, List.append_assoc, List.singleton_append]

theorem notice_prefix_of_line {u : Text} (h : asLine notice <+: u) : notice <+: u :=
  (List.prefix_append notice ['\n']).trans h

section Tree

variable (hs : s.StandsIn t) (hread : t.Every Listing.IsRead)
  (hnames : ∀ n ∈ (Node.ofTree t).preorder, '\n' ∉ n.name ∧ n.name ≠ notice)

include hs

include hread in
/-- No line that a directory is listed by is the notice. -/
theorem not_notice_prefix_children {c : Node} (hc : c ∈ s.directory.children) (u : Text) :
    ¬ asLine notice <+: c.entry.line ++ '\n' :: u := by
  intro h
  have hc := Node.children_mem_preorder hs.directory hc
  exact not_notice_prefix_line (hread.entry_of_mem_preorder hc)
    (Text.prefix_of_prefix_lineFeed not_mem_notice (notice_prefix_of_line h))

include hnames in
/-- A search tells no find by the notice, where nothing has it for a name. -/
theorem not_notice_prefix_pathFrom (hn : n ∈ s.directory.preorder) (u : Text) :
    ¬ asLine notice <+: Node.pathFrom s.directory n ++ '\n' :: u := by
  intro h
  obtain ⟨-, hp | ⟨xs, hne, hxs, hp⟩⟩ := Node.relativePath_of_mem_preorder hn <;> rw [hp] at h
  · have hdot := Text.prefix_of_prefix_lineFeed not_mem_notice (notice_prefix_of_line h)
    exact absurd hdot (by decide)
  have hnamed : ∀ x ∈ xs, '\n' ∉ x ∧ x ≠ notice := by
    intro x hx
    have hn := Node.mem_preorder_trans hs.directory n hn
    obtain ⟨m, hm, rfl⟩ := Node.namedIn_namesUpward hn x (hxs x hx)
    exact hnames m hm
  have hline : '\n' ∉ Path.ofSegments xs := by
    intro hc
    rcases Path.mem_ofSegments hc with hc | ⟨x, hx, hc⟩
    · exact absurd hc (by decide)
    · exact (hnamed x hx).1 hc
  -- the notice has no slash, so it would be a single name
  have heq := Text.eq_of_line_prefix not_mem_notice hline h
  rcases xs with _ | ⟨x, _ | ⟨y, ys⟩⟩
  · exact hne rfl
  · refine (hnamed x List.mem_cons_self).2 ?_
    rw [heq, Path.ofSegments_singleton]
  · have hslash : '/' ∈ Path.ofSegments (x :: y :: ys) := by
      rw [Path.ofSegments_cons_cons]
      exact List.mem_append_right x List.mem_cons_self
    rw [← heq] at hslash
    exact absurd hslash (by decide)

include hnames in
/-- What a search prints, if anything, starts with another line than the notice. -/
theorem not_notice_prefix_printed
    (hfound : ∀ p ∈ found, ∃ n ∈ s.directory.preorder, p = Node.pathFrom s.directory n)
    (hne : Search.printed found ≠ []) (u : Text) :
    ¬ asLine notice <+: Search.printed found ++ u := by
  rcases found with _ | ⟨p, ps⟩
  · exact absurd rfl hne
  · obtain ⟨n, hn, rfl⟩ := hfound p List.mem_cons_self
    rw [Search.printed, List.flatMap_cons, List.append_assoc, List.append_assoc]
    exact not_notice_prefix_pathFrom hs hnames hn _

include hread hnames in
/-- What a command prints, if anything, starts with another line than the notice. -/
theorem Answers.not_notice_prefix_output (h : Answers s words s' output none) (hne : output ≠ [])
    (u : Text) : ¬ asLine notice <+: output ++ u := by
  cases h with
  | quit _ => exact absurd rfl hne
  | stay _ => exact absurd rfl hne
  | move _ _ _ => exact absurd rfl hne
  | place _ =>
    intro h
    obtain ⟨p, hp⟩ := List.head?_eq_some_iff.mp (Node.head?_path s.directory)
    have h := notice_prefix_of_line h
    rw [hp, asLine_append] at h
    have hslash : notice.Apart ['/'] := by decide
    exact ((hslash.append p).append _).1 h
  | children _ =>
    cases hc : s.directory.children with
    | nil =>
      rw [hc] at hne
      exact absurd rfl hne
    | cons c cs =>
      rw [List.flatMap_cons, List.append_assoc, asLine_append c.entry.line]
      exact not_notice_prefix_children hs hread (hc ▸ List.mem_cons_self) _
  | finds _ hp =>
    have hpure := Query.isPure_of_parse hp
    exact not_notice_prefix_printed hs hnames (fun p => Search.mem_found_paths hpure) hne u

end Tree

end Shell

end DirectoryListing
