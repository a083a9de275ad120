import DirectoryListing.Proofs.Listing.Skipped
import DirectoryListing.Proofs.Listing.Strict

/-!
# Strict and lenient readings

A lenient reading differs from a strict one in one place only, a block that was never announced: the
strict one refuses the block and stops there, and the lenient one notes that the block is skipped,
and goes on. Up to the first such block the two are the same reading. So they come to the same where
there is none, and whether there is one can be told from either of them: from the error of the
strict reading, or from the warnings of the lenient one.

## Main definitions

* `Listing.Compares`: how a strict reading compares with a lenient one
* `Listing.Outcome.warnings`: the records of a reading that are warnings

## Main results

* `Assembly.compares_addBlocks`: the two readings of some blocks
* `parse_eq_parse_iff`: the two readings are one where there is no warning
* `parse_agrees_of_warnings`: strict and lenient readings agree where nothing is skipped
-/

namespace DirectoryListing.Listing

variable {α : Type} {lines : List Text} {notes : List Note}

/-! ## Two readings -/

/-- None of the notes tells of a skipped block. -/
def NoneSkipped (notes : List Note) : Prop :=
  ∀ l n, .skipped l n ∉ notes

theorem noneSkipped_nil : NoneSkipped [] := fun _ _ => List.not_mem_nil

theorem NoneSkipped.append {later : List Note} (h : NoneSkipped notes) (h' : NoneSkipped later) :
    NoneSkipped (notes ++ later) := by
  intro l n hmem
  rcases List.mem_append.mp hmem with hmem | hmem
  · exact h l n hmem
  · exact h' l n hmem

/-- How a strict reading compares with a lenient one. The two are the same, and meet no block that
was never announced; or the strict one refuses such a block, which the lenient one notes as
skipped. -/
inductive Compares : List Note × Except Error α → List Note × Except Error α → Prop
  | same {notes : List Note} {r : Except Error α} : NoneSkipped notes →
    (∀ k, r ≠ .error (.malformed k .unknownDirectory)) → Compares (notes, r) (notes, r)
  | refused {notes notes' : List Note} {r : Except Error α} {k : Line} {l : Text} :
    NoneSkipped notes → .skipped l k.number ∈ notes' →
      Compares (notes, .error (.malformed k .unknownDirectory)) (notes', r)

/-- Notes that both readings have taken before do not tell them apart. -/
theorem Compares.after {notes₁ notes₂ : List Note} {r₁ r₂ : Except Error α}
    (h : Compares (notes₁, r₁) (notes₂, r₂)) (hnotes : NoneSkipped notes) :
    Compares (notes ++ notes₁, r₁) (notes ++ notes₂, r₂) := by
  cases h with
  | same hnone hr => exact .same (hnotes.append hnone) hr
  | refused hnone hmem => exact .refused (hnotes.append hnone) (List.mem_append_right _ hmem)

namespace Assembly

/-- **One block.** The two readings part where it was never announced. -/
theorem compares_addBlock (a : Assembly) (b : Block) :
    Compares (a.addBlock true b) (a.addBlock false b) := by
  cases hb : b.label? with
  | none =>
    simp only [addBlock, hb]
    exact .same noneSkipped_nil (by simp)
  | some label =>
    cases hp : a.place? label with
    | none =>
      -- the lines of the block do not matter to a strict reading any more
      simp only [addBlock, hb, hp]
      cases readEntries b.entries with
      | error e => exact .refused noneSkipped_nil List.mem_cons_self
      | ok entries => exact .refused noneSkipped_nil List.mem_cons_self
    | some p =>
      simp only [addBlock, hb, hp]
      cases hes : readEntries b.entries with
      | error e =>
        obtain ⟨-, k, -, -, -, -, rfl⟩ := readEntries_eq_error hes
        exact .same noneSkipped_nil (by simp)
      | ok entries =>
        refine .same ?_ (by simp)
        cases hb : b.hasTotal <;> simp [NoneSkipped]

/-- **All blocks.** The two readings part at the first block that was never announced. -/
theorem compares_addBlocks (a : Assembly) (bs : List Block) :
    Compares (a.addBlocks true bs) (a.addBlocks false bs) := by
  induction bs generalizing a with
  | nil => exact .same noneSkipped_nil nofun
  | cons b bs ih =>
    have first := compares_addBlock a b
    simp only [addBlocks]
    generalize a.addBlock true b = strict at first
    generalize a.addBlock false b = lenient at first
    cases first with
    | @same notes r hnone hr =>
      cases r with
      | error e => exact .same hnone hr
      | ok a' => exact (ih a').after hnone
    | @refused notes notes' r k l hnone hmem =>
      -- the lenient reading keeps its note, whatever follows
      cases r with
      | error e => exact .refused hnone hmem
      | ok a' => exact .refused hnone (List.mem_append_left _ hmem)

end Assembly

/-! ## Warnings -/

/-- The records of a reading that are warnings. -/
def Outcome.warnings (o : Outcome) : List Log.Record :=
  Log.atLeast .warning o.loaded.log

/-- The only warnings are those of skipped blocks. -/
theorem warnings_eq_nil_iff {o : Outcome} : o.warnings = [] ↔ NoneSkipped o.notes := by
  have level : ∀ note : Note, Log.Level.rank .warning ≤ note.record.level.rank ↔
      ∃ l n, note = .skipped l n := by
    intro note
    cases note <;> simp [Note.record, Log.Level.rank]
  simp only [Outcome.warnings, Log.atLeast, Outcome.loaded, List.filter_eq_nil_iff,
    List.forall_mem_map, decide_eq_true_eq, level, NoneSkipped]
  constructor
  · intro h l n hmem
    exact h _ hmem ⟨l, n, rfl⟩
  · rintro h note hmem ⟨l, n, rfl⟩
    exact h l n hmem

/-! ## Whole listings -/

/-- **The two readings of a listing** are one, and skip nothing; or the strict one refuses a block
that the lenient one skips. -/
theorem parse_cases (lines : List Text) :
    (parse false lines = parse true lines ∧ NoneSkipped (parse false lines).notes ∧
        ∀ k, (parse true lines).result ≠ .error (.malformed k .unknownDirectory)) ∨
      NoneSkipped (parse true lines).notes ∧
        ∃ k l, (parse true lines).result = .error (.malformed k .unknownDirectory) ∧
          .skipped l k.number ∈ (parse false lines).notes := by
  have read := Assembly.start.compares_addBlocks (blocks lines)
  simp only [parse]
  generalize Assembly.start.addBlocks true (blocks lines) = strict at read
  generalize Assembly.start.addBlocks false (blocks lines) = lenient at read
  cases read with
  | @same notes r hnone hr =>
    refine .inl ⟨rfl, ?_⟩
    cases r with
    | error e => exact ⟨hnone, by simpa using hr⟩
    | ok a =>
      cases ht : a.tree with
      | none => exact ⟨by simpa [ht] using hnone, by simp [ht]⟩
      | some t => exact ⟨by simpa [ht, NoneSkipped] using hnone, by simp [ht]⟩
  | @refused notes notes' r k l hnone hmem =>
    refine .inr ⟨hnone, k, l, rfl, ?_⟩
    cases r with
    | error e => exact hmem
    | ok a => cases ht : a.tree <;> simpa [ht] using hmem

/-- **The two readings are one** just when the lenient one warns of nothing. -/
theorem parse_eq_parse_iff :
    parse false lines = parse true lines ↔ (parse false lines).warnings = [] := by
  rw [warnings_eq_nil_iff]
  rcases parse_cases lines with ⟨heq, hnone, -⟩ | ⟨hnone, k, l, -, hmem⟩
  · exact iff_of_true heq hnone
  · refine iff_of_false (fun heq => ?_) fun hnone' => hnone' l k.number hmem
    rw [heq] at hmem
    exact hnone l k.number hmem

/-- The lenient reading warns of nothing just when the strict one refuses no block. -/
theorem warnings_parse_eq_nil_iff : (parse false lines).warnings = [] ↔
    ∀ k, (parse true lines).result ≠ .error (.malformed k .unknownDirectory) := by
  rw [warnings_eq_nil_iff]
  rcases parse_cases lines with ⟨-, hnone, hr⟩ | ⟨-, k, l, hr, hmem⟩
  · exact iff_of_true hnone hr
  · exact iff_of_false (fun hnone => hnone l k.number hmem) fun h => h k hr

/-- **Strict and lenient readings agree where nothing is skipped.** What a strict reading accepts, a
lenient one reads to the same tree and without a warning; what a lenient one reads without a
warning, a strict one accepts, with the same tree; and of any other error than a block that was
never announced both tell alike. -/
theorem parse_agrees_of_warnings (lines : List Text) :
    (∀ t, (parse true lines).result = .ok t →
        (parse false lines).result = .ok t ∧ (parse false lines).warnings = []) ∧
      (∀ t, (parse false lines).result = .ok t → (parse false lines).warnings = [] →
        (parse true lines).result = .ok t) ∧
      ∀ e, (parse true lines).result = .error e → (∀ k, e ≠ .malformed k .unknownDirectory) →
        (parse false lines).result = .error e := by
  refine ⟨fun t ht => ?_, fun t ht hnone => ?_, fun e he hne => ?_⟩
  · have hnone : (parse false lines).warnings = [] :=
      warnings_parse_eq_nil_iff.mpr fun k hk => by
        rw [ht] at hk
        cases hk
    rw [parse_eq_parse_iff.mpr hnone]
    exact ⟨ht, parse_eq_parse_iff.mpr hnone ▸ hnone⟩
  · rwa [← parse_eq_parse_iff.mpr hnone]
  · have hnone : (parse false lines).warnings = [] :=
      warnings_parse_eq_nil_iff.mpr fun k hk => hne k (Except.error.inj (he.symm.trans hk))
    rwa [parse_eq_parse_iff.mpr hnone]

/-- A listing of a directory `a` with a file. -/
def announcedOnce : List Text :=
  [".:".toList, "total 0".toList, directoryLine, [], "./a:".toList, "total 0".toList, fileLine]

/-- Its tree. -/
def announcedOnceTree : Tree :=
  .directory .root [.directory ⟨directoryLine, ['a'], 0⟩ [.file ⟨fileLine, ['f'], 1⟩]]

theorem parse_announcedOnce (strict : Bool) :
    (parse strict announcedOnce).result = .ok announcedOnceTree := by
  cases strict <;> decide +kernel

/-- Both readings accept the listing, and both stop at a further line that is no entry. -/
theorem parse_agrees_of_warnings_announcedOnce :
    let malformed := announcedOnce ++ [['?']]
    let e : Error := .malformed ⟨8, ['?']⟩ .shape
    ((parse true announcedOnce).result = .ok announcedOnceTree ∧
        (parse false announcedOnce).result = .ok announcedOnceTree) ∧
      (parse false announcedOnce).warnings = [] ∧
      (parse true malformed).result = .error e ∧ (parse false malformed).result = .error e := by
  intro malformed e
  obtain ⟨lenient, strict, -⟩ := parse_agrees_of_warnings announcedOnce
  obtain ⟨-, -, failed⟩ := parse_agrees_of_warnings malformed
  obtain ⟨hok, hnone⟩ := lenient _ (parse_announcedOnce true)
  have he : (parse true malformed).result = .error e := by decide +kernel
  exact ⟨⟨strict _ hok hnone, hok⟩, hnone, he, failed e he (by simp [e])⟩

end DirectoryListing.Listing
