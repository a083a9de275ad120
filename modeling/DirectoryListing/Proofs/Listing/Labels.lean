import DirectoryListing.Path

/-!
# Labels of blocks

The label of a block is the path of its directory. The labels of different directories in one
directory are different, and so are those of everything below them, since the names of directories
hold no slash.

## Main definitions

* `Path.IsSegment`: a name between two slashes
* `Path.IsTrimmed`: a name without slashes at its ends
* `Path.stem`: a path with the slash that a further name needs
* `Path.Under b l`: the path `l` is `b` or goes on from there

## Main results

* `Path.join_injective`: different names lead to different paths
* `Path.Under.of_join`: what is under a path further down is under a path
* `Path.not_under_join`: a path is not under that of a sibling
-/

namespace DirectoryListing.Path

variable {base b l n m : Text}

/-- A name that can stand between two slashes. -/
structure IsSegment (n : Text) : Prop where
  ne_nil : n ≠ []
  slash : '/' ∉ n

/-- A name with something else than a slash at both of its ends. -/
structure IsTrimmed (n : Text) : Prop where
  ne_nil : n ≠ []
  head : n.head? ≠ some '/'
  last : n.getLast? ≠ some '/'

theorem IsSegment.isTrimmed (h : IsSegment n) : IsTrimmed n :=
  ⟨h.ne_nil, fun hc => h.slash (List.mem_of_head? hc), fun hc => h.slash (List.mem_of_getLast? hc)⟩

/-- A path with the slash at its end that a further name needs. -/
def stem (base : Text) : Text :=
  if base = [] ∨ base.getLast? = some '/' then base else base ++ ['/']

theorem IsTrimmed.join (h : IsTrimmed n) (base : Text) : join base n = stem base ++ n := by
  unfold Path.join stem
  rw [if_neg h.head]
  split <;> simp

theorem IsSegment.join (h : IsSegment n) (base : Text) : join base n = stem base ++ n :=
  h.isTrimmed.join base

/-- **Different names lead to different paths.** -/
theorem join_injective (hn : IsSegment n) (hm : IsSegment m) (h : join base n = join base m) :
    n = m := by
  rw [hn.join, hm.join] at h
  exact List.append_cancel_left h

/-- A path that ends in a name needs a slash before the next one. -/
theorem IsTrimmed.stem_join (h : IsTrimmed n) (base : Text) :
    stem (Path.join base n) = Path.join base n ++ ['/'] := by
  obtain ⟨c, t, ht⟩ := List.exists_cons_of_ne_nil h.ne_nil
  have last : (stem base ++ n).getLast? = n.getLast? := by
    rw [List.getLast?_append, ht, List.getLast?_cons, Option.some_or]
  rw [h.join, stem, if_neg]
  rintro (hnil | hslash)
  · exact h.ne_nil (List.append_eq_nil_iff.mp hnil).2
  · exact h.last (last ▸ hslash)

theorem IsSegment.stem_join (h : IsSegment n) (base : Text) :
    stem (Path.join base n) = Path.join base n ++ ['/'] :=
  h.isTrimmed.stem_join base

/-- The path `l` is `b` or goes on from there. -/
def Under (b l : Text) : Prop :=
  l = b ∨ b ++ ['/'] <+: l

theorem under_refl (b : Text) : Under b b :=
  .inl rfl

/-- **What is under a path further down** is under a path that ends in a name. -/
theorem Under.of_join (hb : stem b = b ++ ['/']) (hn : IsSegment n) (h : Under (join b n) l) :
    Under b l := by
  have further : b ++ ['/'] <+: join b n := by
    rw [hn.join, hb]
    exact List.prefix_append _ n
  rcases h with rfl | h
  · exact .inr further
  · exact .inr (further.trans ((List.prefix_append _ _).trans h))

/-- **A path is not under that of a sibling.** -/
theorem not_under_join (hn : IsSegment n) (hm : IsSegment m) (hne : m ≠ n) (base : Text) :
    ¬ Under (join base n) (join base m) := by
  rw [hn.join, hm.join]
  rintro (h | ⟨t, h⟩)
  · exact hne (List.append_cancel_left h)
  -- the slash would have to stand in the longer name
  · rw [List.append_assoc, List.append_assoc] at h
    exact hm.slash (List.append_cancel_left h ▸ by simp)

end DirectoryListing.Path
