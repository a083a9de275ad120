import DirectoryListing.Text.Basic

/-!
# Patterns

A pattern matches at the start of a text, and there may be several ways in which it does: a run of
characters takes as many as it can, and gives them up again, one after the other, when what comes
after it does not match. All ways are listed here, in the order in which they are tried, so that the
first of them is the one that counts.

A run has no choice where what comes after it cannot begin with one of its characters: then it has to
take all of them.

## Main definitions

* `Pattern ι`: runs of characters, put one after the other, with parts that have names
* `Pattern.ways p t`: the ways in which a pattern matches, those that are tried first coming first

## Main results

* `Pattern.flatMap_runs`: a run without a choice
* `Pattern.runs_snoc`: a run gives up its last character only when it has to
-/

namespace DirectoryListing

variable {ι β : Type}

/-- A pattern for the start of a text, with some parts named. -/
inductive Pattern (ι : Type) where
  /-- A run of characters of a class, as many as there are within the bounds. -/
  | run (p : Char → Bool) (least : Nat) (most : Option Nat)
  /-- The end of the text. A line feed at the very end may be left. -/
  | ending
  /-- One pattern and then another. -/
  | seq (first second : Pattern ι)
  /-- One pattern, or else another. -/
  | either (first second : Pattern ι)
  /-- A part with a name. -/
  | group (i : ι) (part : Pattern ι)

namespace Pattern

/-! ## Runs -/

/-- A run of the length given is within the bounds. -/
def allows (least : Nat) (most : Option Nat) (length : Nat) : Bool :=
  least ≤ length && most.all (length ≤ ·)

/-- The ways to take a run of characters of a class off a text, within the bounds: one more is taken
before it is tried to leave it. -/
def runs (p : Char → Bool) (least : Nat) (most : Option Nat) : Text → List (Text × Text)
  | [] => if least = 0 then [([], [])] else []
  | c :: t =>
    (if p c && most.all (1 ≤ ·) then
      (runs p (least - 1) (most.map (· - 1)) t).map fun (u, rest) => (c :: u, rest)
    else []) ++
    (if least = 0 then [([], c :: t)] else [])

/-! ## Ways -/

/-- A way in which a pattern matches: the text that it takes, its named parts, and the text that it
leaves. -/
structure Match (ι : Type) where
  text : Text
  groups : List (ι × Text)
  rest : Text

/-- Two matches, one after the other. -/
def Match.append (m n : Match ι) : Match ι :=
  ⟨m.text ++ n.text, m.groups ++ n.groups, n.rest⟩

/-- A match with a name for what it takes. -/
def Match.named (i : ι) (m : Match ι) : Match ι :=
  { m with groups := m.groups ++ [(i, m.text)] }

/-- The ways in which a pattern matches at the start of a text, in the order in which they are
tried. -/
def ways : Pattern ι → Text → List (Match ι)
  | run p least most, t => (runs p least most t).map fun (u, rest) => ⟨u, [], rest⟩
  | ending, t => if t = [] || t = ['\n'] then [⟨[], [], t⟩] else []
  | seq first second, t => (first.ways t).flatMap fun m => (second.ways m.rest).map m.append
  | either first second, t => first.ways t ++ second.ways t
  | group i part, t => (part.ways t).map (.named i)

/-- How a pattern matches at the start of a text, if it does: in the way that is tried first of those
that lead to the end of the pattern. -/
def match? (p : Pattern ι) (t : Text) : Option (Match ι) :=
  (p.ways t).head?

/-! ## Runs without a choice -/

section Runs

variable {p q : Char → Bool} {least : Nat} {most : Option Nat} {t u : Text} {c : Char}
  {f : Text × Text → List β}

theorem runs_nil (p : Char → Bool) (least : Nat) (most : Option Nat) :
    runs p least most [] = if least = 0 then [([], [])] else [] := rfl

theorem runs_cons (p : Char → Bool) (least : Nat) (most : Option Nat) (c : Char) (t : Text) :
    runs p least most (c :: t) =
      (if p c && most.all (1 ≤ ·) then
        (runs p (least - 1) (most.map (· - 1)) t).map fun (u, rest) => (c :: u, rest)
      else []) ++
      (if least = 0 then [([], c :: t)] else []) := rfl

theorem allows_zero (least : Nat) (most : Option Nat) : allows least most 0 = decide (least = 0) := by
  simp [allows]

/-- A run may be longer by one if it may have a first character and the bounds that are left then
allow for the others. -/
theorem allows_succ (least : Nat) (most : Option Nat) (n : Nat) : allows least most (n + 1) =
    (most.all (1 ≤ ·) && allows (least - 1) (most.map (· - 1)) n) := by
  rw [Bool.eq_iff_iff]
  cases most with
  | none =>
    simp only [allows, Option.all_none, Option.map_none, Bool.and_true, Bool.true_and,
      decide_eq_true_eq]
    omega
  | some m =>
    simp only [allows, Option.all_some, Option.map_some, Bool.and_eq_true, decide_eq_true_eq]
    omega

/-- **A run without a choice.** If nothing comes of leaving a character of a wider class, a run takes
all of them, and matches if they are of its own class and within its bounds. -/
theorem flatMap_runs (hp : ∀ c, p c = true → q c = true)
    (hf : ∀ u c rest, u ++ c :: rest = t → q c = true → f (u, c :: rest) = []) :
    (runs p least most t).flatMap f =
      if (t.takeWhile q).all p && allows least most (t.takeWhile q).length then
        f (t.takeWhile q, t.dropWhile q)
      else [] := by
  induction t generalizing least most f with
  | nil =>
    simp only [runs_nil, List.takeWhile_nil, List.dropWhile_nil, List.all_nil, List.length_nil,
      allows_zero, Bool.true_and, decide_eq_true_eq]
    split <;> simp
  | cons c t ih =>
    rw [runs_cons, List.flatMap_append]
    cases hin : q c with
    | false =>
      -- the run ends here, and the character is not of its class either
      have hpc : p c = false := Bool.eq_false_iff.mpr fun h => by simp [hp c h] at hin
      simp only [hpc, Bool.false_and, Bool.false_eq_true, if_false, List.flatMap_nil,
        List.nil_append, List.takeWhile_cons, hin, List.dropWhile_cons, List.all_nil,
        List.length_nil, allows_zero, Bool.true_and, decide_eq_true_eq]
      split <;> simp
    | true =>
      have leaving : (if least = 0 then [(([] : Text), c :: t)] else []).flatMap f = [] := by
        have hfc := hf [] c t rfl hin
        split <;> simp [hfc]
      have taking : (runs p (least - 1) (most.map (· - 1)) t).flatMap
          (fun x => f (c :: x.1, x.2)) = _ :=
        ih fun u d rest ht => hf (c :: u) d rest (ht ▸ rfl)
      rw [leaving, List.append_nil, List.takeWhile_cons_of_pos hin, List.dropWhile_cons_of_pos hin,
        List.all_cons, List.length_cons, allows_succ]
      -- the character is taken if it is of the class and the bounds allow for one more
      cases p c <;> cases most.all (1 ≤ ·) <;>
        simp only [Bool.and_true, Bool.and_false, Bool.true_and, Bool.false_and, if_true,
          Bool.false_eq_true, if_false, List.flatMap_map, List.flatMap_nil, taking]

/-! ## The ways of a run -/

/-- A run of one character takes the first one, if it is of its class. -/
theorem runs_one (p : Char → Bool) (c : Char) (t : Text) :
    runs p 1 (some 1) (c :: t) = if p c then [([c], t)] else [] := by
  have spent : runs p 0 (some 0) t = [([], t)] := by
    cases t with
    | nil => rfl
    | cons d t => simp [runs_cons]
  cases h : p c <;> simp [runs_cons, h, spent]

/-- What a run takes is of its class, and the rest is left. -/
theorem append_of_mem_runs {x : Text × Text} (h : x ∈ runs p least most t) :
    x.1 ++ x.2 = t ∧ ∀ c ∈ x.1, p c = true := by
  induction t generalizing least most x with
  | nil =>
    rw [runs_nil] at h
    split at h
    · rw [List.mem_singleton.mp h]
      exact ⟨rfl, nofun⟩
    · cases h
  | cons c t ih =>
    rw [runs_cons, List.mem_append] at h
    rcases h with h | h
    · split at h
      · next ok =>
        obtain ⟨y, hy, rfl⟩ := List.mem_map.mp h
        obtain ⟨htext, hclass⟩ := ih hy
        rw [Bool.and_eq_true] at ok
        exact ⟨congrArg (c :: ·) htext, List.forall_mem_cons.mpr ⟨ok.1, hclass⟩⟩
      · cases h
    · split at h
      · rw [List.mem_singleton.mp h]
        exact ⟨rfl, nofun⟩
      · cases h

/-- A run takes all that it can first. -/
theorem runs_append (hu : ∀ c ∈ u, p c = true) (ht : ∀ c ∈ t.head?, p c = false)
    (hleast : least ≤ u.length) : ∃ later, runs p least none (u ++ t) = (u, t) :: later := by
  induction u generalizing least with
  | nil =>
    obtain rfl : least = 0 := Nat.le_zero.mp hleast
    cases t with
    | nil => exact ⟨[], rfl⟩
    | cons c t => exact ⟨[], by simp [runs_cons, ht c rfl]⟩
  | cons c u ih =>
    obtain ⟨hc, hu⟩ := List.forall_mem_cons.mp hu
    obtain ⟨later, hlater⟩ := ih hu (Nat.sub_le_of_le_add hleast)
    exact ⟨_, by rw [List.cons_append, runs_cons, hc, Option.map_none, hlater]; rfl⟩

/-- **A run gives up its last character** next, and goes on as if that character were not there. -/
theorem runs_snoc (hu : ∀ d ∈ u, p d = true) (hc : p c = true) (hleast : least ≤ u.length) :
    runs p least none (u ++ [c]) =
      (u ++ [c], []) :: (runs p least none u).map fun (v, rest) => (v, rest ++ [c]) := by
  induction u generalizing least with
  | nil =>
    obtain rfl : least = 0 := Nat.le_zero.mp hleast
    simp [runs_cons, runs_nil, hc]
  | cons d u ih =>
    obtain ⟨hd, hu⟩ := List.forall_mem_cons.mp hu
    have shorter := ih hu (Nat.sub_le_of_le_add hleast)
    rw [List.cons_append, runs_cons, runs_cons, hd, Option.map_none, shorter]
    by_cases h : least = 0 <;> simp [h]

end Runs

end Pattern

end DirectoryListing
