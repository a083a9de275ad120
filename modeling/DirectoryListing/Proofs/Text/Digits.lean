import DirectoryListing.Text.Blank

/-!
# Digits

The decimal numeral of a number consists of digits, and a digit is not blank. So a numeral stands as
it is between blanks.

## Main results

* `Text.isDigit_of_mem_ofNat`: a numeral consists of digits
* `Text.not_isBlank_of_isDigit`: a digit is not blank
-/

namespace DirectoryListing.Text

variable {n : Nat} {c : Char}

theorem ofNat_ne_nil (n : Nat) : ofNat n ≠ [] := by
  simp [ofNat]

/-- A numeral consists of digits. -/
theorem isDigit_of_mem_ofNat (h : c ∈ ofNat n) : isDigit c = true := by
  have hd : c.isDigit = true := Nat.isDigit_of_mem_toDigits (by decide) (by decide) h
  simpa [Char.isDigit, isDigit, Char.le_def] using hd

theorem all_isDigit_ofNat (n : Nat) : (ofNat n).all isDigit = true :=
  List.all_eq_true.mpr fun _ => isDigit_of_mem_ofNat

/-- A digit is not blank. -/
theorem not_isBlank_of_isDigit (h : isDigit c = true) : DirectoryListing.isBlank c = false := by
  simp only [isDigit, Bool.and_eq_true, decide_eq_true_eq, Char.le_def,
    UInt32.le_iff_toNat_le] at h
  simp only [DirectoryListing.isBlank, blankRuns, List.any_cons, List.any_nil, Bool.or_false,
    Bool.or_eq_false_iff, Bool.and_eq_false_iff, decide_eq_false_iff_not, Char.toNat]
  have h₁ : 48 ≤ c.val.toNat := h.1
  have h₂ : c.val.toNat ≤ 57 := h.2
  omega

end DirectoryListing.Text
