import DirectoryListing.Listing.Source
import DirectoryListing.Proofs.Encoding.Written
import DirectoryListing.Proofs.Listing.Strict
import DirectoryListing.Proofs.Text.LineEnds

/-!
# Listings in files

A listing comes to the same from a file as from the text that the file was written from. Reading the
file brings the text back, but for the ends of its lines, which are written in one way; no line end
has a part in what the listing comes to. A carriage return that ends no line in the text would end
one in the file.

## Main results

* `parse_congr`: a listing depends on what its lines are without their ends
* `load_file_of_encode?`: a listing from a file and from a text
* `load_file_eq_error_iff`: when no tree comes from a file
-/

namespace DirectoryListing

theorem Line.numberedFrom_congr {ts us : List Text}
    (h : ts.map Text.withoutLineEnd = us.map Text.withoutLineEnd) (n : Nat) :
    numberedFrom n ts = numberedFrom n us := by
  induction ts generalizing us n with
  | nil =>
    obtain rfl : us = [] := by simpa using h.symm
    rfl
  | cons t ts ih =>
    obtain ⟨u, us, rfl, hu, h⟩ := List.map_eq_cons_iff.mp h.symm
    rw [numberedFrom, numberedFrom, hu, ih h.symm]

namespace Listing

variable {o : Options} {e : Encoding} {t : Text} {bytes : List UInt8}

/-- The ends of its lines have no part in what a listing comes to. -/
theorem parse_congr {ts us : List Text}
    (h : ts.map Text.withoutLineEnd = us.map Text.withoutLineEnd) (strict : Bool) :
    parse strict ts = parse strict us := by
  rw [parse, parse, Line.numbered, Line.numbered, Line.numberedFrom_congr h]

/-- **A listing from a file** comes to the same as from the text that was written to the file, if a
line feed follows each carriage return of the text. Opening the file is one more record. -/
theorem load_file_of_encode? (hname : Encoding.ofName? o.encoding = some e)
    (hreturns : t.ReturnsPaired) (hbytes : e.encode? t = some bytes) (path : Text) :
    (load o (.file path (.ok bytes))).result = (load o (.text t)).result ∧
      (load o (.file path (.ok bytes))).log = openRecord path :: (load o (.text t)).log := by
  have lines : (fileLines e bytes).map Text.withoutLineEnd = t.lines.map Text.withoutLineEnd := by
    rw [fileLines, Encoding.decode_of_encode? hbytes,
      Text.map_withoutLineEnd_unifiedLineEnds hreturns]
  have same : parse o.strict (fileLines e bytes) = parse o.strict t.lines :=
    parse_congr lines o.strict
  simp only [load, hname, same, and_self]

/-- An entry line with a letter that takes two bytes in UTF-8 and one in Latin-1. -/
def accentedLine : Text := "-rw-r--r-- 1 u g 1 Jan 1 00:00 é".toList

/-- A listing of a directory with this entry, its lines ended by carriage returns and line feeds. -/
def accented : Text := ".:\r\ntotal 0\r\n".toList ++ accentedLine ++ "\r\n".toList

theorem load_file_accented :
    accented.ReturnsPaired ∧ ∃ bytes, Encoding.latin1.encode? accented = some bytes ∧
      (load ⟨"latin-1".toList, true⟩ (.file ['l'] (.ok bytes))).result =
        .ok (.directory .root [.file ⟨accentedLine, ['é'], 1⟩]) := by
  have returns : accented.ReturnsPaired := by decide +kernel
  have narrow : accented.all (fun c => decide (c.toNat < 0x100)) = true := by decide +kernel
  have written : (Encoding.latin1.encode? accented).isSome = true :=
    Encoding.isSome_encode?_iff.mpr fun c hc => of_decide_eq_true (List.all_eq_true.mp narrow c hc)
  obtain ⟨bytes, hbytes⟩ := Option.isSome_iff_exists.mp written
  have read : (parse true accented.lines).result =
      .ok (.directory .root [.file ⟨accentedLine, ['é'], 1⟩]) :=
    eq_ok_of_toOption (by decide +kernel)
  refine ⟨returns, bytes, hbytes, ?_⟩
  rw [(load_file_of_encode? (by decide) returns hbytes ['l']).1]
  exact congrArg (Except.mapError Error.fault) read

/-! ## Files without a tree -/

/-- **No tree comes from a file** whose encoding is unknown, which cannot be read, or which holds a
listing without a tree. -/
theorem load_file_eq_error_iff {path : Text} {contents : Except FileError (List UInt8)} :
    (∃ f, (load o (.file path contents)).result = .error f) ↔
      Encoding.ofName? o.encoding = none ∨ (∃ e, contents = .error e) ∨
        ∃ e bytes err, Encoding.ofName? o.encoding = some e ∧ contents = .ok bytes ∧
          (parse o.strict (fileLines e bytes)).result = .error err := by
  unfold load
  cases hname : Encoding.ofName? o.encoding with
  | none => simp
  | some e =>
    cases contents with
    | error e => simp
    | ok bytes =>
      simp only [loaded_eq_error, reduceCtorEq, false_or, exists_false, Except.ok.injEq,
        Option.some.injEq]
      constructor
      · rintro ⟨_, err, herr, rfl⟩
        exact ⟨e, bytes, err, rfl, rfl, herr⟩
      · rintro ⟨_, _, err, rfl, rfl, herr⟩
        exact ⟨err.fault, err, herr, rfl⟩

/-- The fault of a listing from a file is that of its listing, of its file or of the options. -/
theorem fault_of_load_file {path : Text} {contents : Except FileError (List UInt8)} {f : Fault}
    (h : (load o (.file path contents)).result = .error f) :
    f.kind?.isSome = true ∨ (∃ message, f = .file message) ∨ ∃ message, f = .badValue message := by
  unfold load at h
  cases hname : Encoding.ofName? o.encoding with
  | none =>
    rw [hname] at h
    cases h
    exact .inr (.inr ⟨_, rfl⟩)
  | some e =>
    rw [hname] at h
    cases contents with
    | error e =>
      cases h
      exact .inr (.inl ⟨_, rfl⟩)
    | ok bytes =>
      obtain ⟨err, -, rfl⟩ := loaded_eq_error.mp h
      cases err <;> exact .inl rfl

end Listing

end DirectoryListing
