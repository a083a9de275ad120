import DirectoryListing.CommandLine.Arguments
import DirectoryListing.Proofs.Listing.Content

/-!
# Arguments in one form

Whatever some arguments ask for can be asked for in one form: by long switches with their values
behind equals signs, and the listing behind the end of the switches. Two hyphens alone can be no
value in this form, since the switch is then left without one; but they are the value of no switch
in any other form either.

## Main definitions

* `Switch.written s value`: a long switch, with its value if it has one
* `Arguments.written a`: arguments that ask for `a`

## Main results

* `Arguments.read_written`: the arguments are read as they were written, or have lost a value
* `Arguments.read_written_of_read`: what some arguments ask for can be asked for in one form
-/

namespace DirectoryListing.CommandLine

variable {s : Switch} {name t : Text} {rest : List Text} {items : List Item} {p : Progress}

/-! ## Writing -/

/-- The long spelling of a switch. -/
def Switch.long : Switch → Text
  | help => "--help".toList
  | encoding => "--encoding".toList
  | lenient => "--lenient".toList
  | command => "--command".toList
  | verbose => "--verbose".toList
  | version => "--version".toList

/-- A long switch, with its value if it has one. -/
def Switch.written (s : Switch) : Option Text → Text
  | none => s.long
  | some value => s.long ++ '=' :: value

namespace Arguments

/-- The switches that ask for `a`, with their values. -/
def switches (a : Arguments) : List (Switch × Option Text) :=
  (.encoding, some a.encoding) :: (if a.lenient then [(.lenient, none)] else []) ++
    a.commands.map (.command, some ·) ++ List.replicate a.verbosity (.verbose, none)

/-- Arguments that ask for `a`. -/
def written (a : Arguments) : List Text :=
  a.switches.map (fun (s, value) => s.written value) ++ [['-', '-'], a.listing]

end Arguments

/-! ## Single arguments -/

theorem Switch.spelled?_long (s : Switch) : spelled? s.long = some s := by
  cases s <;> decide

/-- No spelling of a switch has an equals sign in it. -/
theorem Switch.not_mem_of_spelled (h : spelled? t = some s) : '=' ∉ t := by
  obtain ⟨before, after, htable, -⟩ := List.lookup_eq_some_iff.mp h
  have plain : ∀ x ∈ table, '=' ∉ x.1 := by decide
  exact plain (t, s) (by simp [htable])

namespace Item

theorem cutAtEquals_append (h : '=' ∉ name) (value : Text) :
    cutAtEquals (name ++ '=' :: value) = (name, some value) := by
  have before : ∀ c ∈ name, decide (c ≠ '=') = true := fun c hc =>
    decide_eq_true fun heq => h (heq ▸ hc)
  have cut : (name ++ '=' :: value).takeWhile (fun c => decide (c ≠ '=')) = name := by
    rw [List.takeWhile_append_of_pos before, List.takeWhile_cons_of_neg (by simp), List.append_nil]
  rw [cutAtEquals]
  simp only [cut]
  simp

/-- A long switch is read as it was written. -/
theorem ofArgument_written (s : Switch) (value : Option Text) :
    ofArgument (s.written value) = .ok (.single s value) := by
  cases value with
  | none => cases s <;> rfl
  | some value =>
    have spelled := s.spelled?_long
    have unspelled : Switch.spelled? (s.long ++ '=' :: value) = none := by
      cases hs : Switch.spelled? (s.long ++ '=' :: value) with
      | none => rfl
      | some s' => exact absurd (Switch.not_mem_of_spelled hs) (by simp)
    have cut := cutAtEquals_append (Switch.not_mem_of_spelled spelled) value
    have long : ofArgument (s.long ++ '=' :: value) = ofLong (s.long ++ '=' :: value) := by
      cases s <;> rfl
    rw [Switch.written, long, ofLong, cut]
    simp only [unspelled, spelled]

/-- Long switches are read as they were written. -/
theorem ofArguments_written (h : ofArguments rest = .ok items)
    (switches : List (Switch × Option Text)) :
    ofArguments (switches.map (fun (s, value) => s.written value) ++ rest) =
      .ok (switches.map (fun (s, value) => .single s value) ++ items) := by
  induction switches with
  | nil => exact h
  | cons x switches ih =>
    rw [List.map_cons, List.cons_append, ofArguments, ofArgument_written]
    simp only [ih]
    rfl

end Item

/-! ## All arguments -/

namespace Progress

/-- The value of a switch, unless it is lost. -/
def keptValue (t : Text) : Option Text := if t = ['-', '-'] then none else some t

/-- The commands are all there if none of them is lost. -/
theorem mapM_keptValue (commands : List Text) : (commands.map keptValue).mapM id =
    if ['-', '-'] ∈ commands then none else some commands := by
  induction commands with
  | nil => rfl
  | cons t commands ih =>
    simp only [List.map_cons, List.mapM_cons, ih, keptValue, List.mem_cons, id]
    by_cases ht : t = ['-', '-']
    · simp [ht]
    · by_cases hlost : ['-', '-'] ∈ commands <;> simp [ht, hlost, Ne.symm ht]

/-- Commands are taken up in their order. -/
theorem readItems_commands (p : Progress) (commands : List Text) (items : List Item) :
    p.readItems none (commands.map (fun t => .single .command (some t)) ++ items) =
      readItems { p with commands := p.commands ++ commands.map keptValue } none items := by
  induction commands generalizing p with
  | nil => simp
  | cons t commands ih =>
    have step := ih (p.value .command t)
    simp only [value, List.append_assoc, List.singleton_append] at step
    exact step

/-- Every further switch to log more is counted. -/
theorem readItems_verbose (p : Progress) (n : Nat) (items : List Item) :
    p.readItems none (List.replicate n (.single .verbose none) ++ items) =
      readItems { p with verbosity := p.verbosity + n } none items := by
  induction n generalizing p with
  | zero => rfl
  | succ n ih =>
    have step := ih { p with verbosity := p.verbosity + 1 }
    rw [Nat.add_assoc, Nat.add_comm 1 n] at step
    exact step

end Progress

namespace Arguments

/-- What is read of written arguments, before the values are looked at. -/
theorem readItems_written (a : Arguments) :
    Progress.start.readItems none
        (a.switches.map (fun (s, value) => .single s value) ++ [.separator, .plain a.listing]) =
      .ok ⟨some a.listing, Progress.keptValue a.encoding, a.lenient,
        a.commands.map Progress.keptValue, a.verbosity, []⟩ := by
  -- the encoding first, and the switch to read leniently if it is there
  have first (items : List Item) :
      Progress.start.readItems none
          ((.single .encoding (some a.encoding) ::
            if a.lenient then [.single .lenient none] else []) ++ items) =
        Progress.readItems ⟨none, Progress.keptValue a.encoding, a.lenient, [], 0, []⟩ none items := by
    cases a.lenient <;> rfl
  have items : a.switches.map (fun (s, value) => Item.single s value) =
      (.single .encoding (some a.encoding) ::
        if a.lenient then [.single .lenient none] else []) ++
      (a.commands.map (fun t => .single .command (some t)) ++
        List.replicate a.verbosity (.single .verbose none)) := by
    simp only [switches, List.map_append, List.map_cons, List.map_map, List.map_replicate,
      List.append_assoc, List.cons_append]
    cases a.lenient <;> rfl
  rw [items, List.append_assoc, first, List.append_assoc, Progress.readItems_commands,
    Progress.readItems_verbose]
  simp [Progress.readItems]

/-- **Arguments are read as they were written.** If a value is two hyphens, they have lost it. -/
theorem read_written (a : Arguments) : read a.written =
    if ['-', '-'] ∈ a.commands then .error (.valueless .command)
    else if a.encoding = ['-', '-'] then .error (.valueless .encoding) else .ok a := by
  have items : Item.ofArguments a.written =
      .ok (a.switches.map (fun (s, value) => .single s value) ++
        [.separator, .plain a.listing]) := Item.ofArguments_written rfl a.switches
  rw [read, items]
  simp only [readItems_written, Progress.finish, Progress.mapM_keptValue]
  by_cases hcommands : ['-', '-'] ∈ a.commands
  · rw [if_pos hcommands, if_pos hcommands]
  · rw [if_neg hcommands, if_neg hcommands]
    by_cases hencoding : a.encoding = ['-', '-']
    · rw [Progress.keptValue, if_pos hencoding, if_pos hencoding]
    · rw [Progress.keptValue, if_neg hencoding, if_neg hencoding]

end Arguments

/-! ## Other forms -/

namespace Progress

variable {p' : Progress} {waiting waiting' : Option Cluster} {k : Cluster}

/-- No value is two hyphens. -/
structure Kept (p : Progress) : Prop where
  encoding : p.encoding ≠ some ['-', '-']
  commands : some ['-', '-'] ∉ p.commands

theorem kept_start : start.Kept := ⟨by decide, List.not_mem_nil⟩

theorem Kept.value (h : p.Kept) (s : Switch) (t : Text) : (p.value s t).Kept := by
  have hkept : keptValue t ≠ some ['-', '-'] := by
    rw [keptValue]
    split <;> simp_all
  cases s with
  | encoding => exact ⟨hkept, h.commands⟩
  | command =>
    refine ⟨h.encoding, fun hmem => ?_⟩
    rcases List.mem_append.mp hmem with hmem | hmem
    · exact h.commands hmem
    · exact hkept (List.mem_singleton.mp hmem).symm
  | _ => exact h

theorem Kept.flag (h : p.Kept) (hp : p.flag s = .ok p') : p'.Kept := by
  cases s <;> cases hp <;> exact ⟨h.encoding, h.commands⟩

theorem Kept.flags {switches : List Switch} (h : p.Kept) (hp : p.flags switches = .ok p') :
    p'.Kept := by
  induction switches generalizing p with
  | nil =>
    cases hp
    exact h
  | cons s switches ih =>
    rw [Progress.flags] at hp
    cases hs : p.flag s with
    | error e =>
      rw [hs] at hp
      cases hp
    | ok p₁ =>
      rw [hs] at hp
      exact ih (h.flag hs) hp

theorem Kept.obey (h : p.Kept) (hp : p.obey k = .ok (p', waiting)) : p'.Kept := by
  rw [Progress.obey] at hp
  split at hp
  · cases hp
    exact h
  · cases hf : p.flags k.flags with
    | error e =>
      rw [hf] at hp
      cases hp
    | ok p₁ =>
      rw [hf] at hp
      cases hp
      exact (h.flags hf).value _ _
  · cases hf : p.flags (k.flags ++ [k.last]) with
    | error e =>
      rw [hf] at hp
      cases hp
    | ok p₁ =>
      rw [hf] at hp
      cases hp
      exact h.flags hf
  · cases hp

theorem Kept.switches {item : Item} (h : p.Kept) (hp : p.switches item = .ok (p', waiting)) :
    p'.Kept := by
  cases item with
  | single s value => exact h.obey hp
  | short s attached =>
    rw [Progress.switches] at hp
    split at hp
    · cases hp
    · exact h.obey hp
  | _ =>
    cases hp
    exact h

/-- No value is two hyphens, whatever is read. -/
theorem Kept.readItems (h : p.Kept) (hp : p.readItems waiting items = .ok p') : p'.Kept := by
  fun_induction Progress.readItems p waiting items with
  | case1 =>
    cases hp
    exact h
  | case2 | case3 | case5 | case12 => cases hp
  | case4 p k t rest p₁ waiting hobey ih => exact ih (h.obey hobey) hp
  | case13 p item rest _ _ _ p₁ waiting hswitches ih => exact ih (h.switches hswitches) hp
  -- what is no switch leaves the values as they are
  | _ =>
    rename_i ih
    exact ih ⟨h.encoding, h.commands⟩ hp

end Progress

namespace Arguments

variable {arguments : List Text} {a : Arguments}

/-- No value that is read is two hyphens. -/
theorem values_of_read (h : read arguments = .ok a) :
    ['-', '-'] ∉ a.commands ∧ a.encoding ≠ ['-', '-'] := by
  obtain ⟨p, listing, hkept, hp⟩ : ∃ p listing, Progress.Kept p ∧ p.finish listing = .ok a := by
    unfold read at h
    split at h
    · cases h
    · split at h
      · cases h
      · rename_i p hp
        split at h
        · cases h
        · exact ⟨p, _, Progress.kept_start.readItems hp, h⟩
        · cases h
  unfold Progress.finish at hp
  split at hp
  · cases hp
  · cases hp
  · rename_i commands encoding hcommands hencoding
    cases hp
    have values : p.commands = commands.map some := by
      simpa using Listing.mapM_eq_some.mp hcommands
    exact ⟨fun hmem => hkept.commands (values ▸ List.mem_map_of_mem hmem),
      fun heq => hkept.encoding (heq ▸ hencoding)⟩

/-- **What some arguments ask for** can be asked for in one form. -/
theorem read_written_of_read (h : read arguments = .ok a) : read a.written = .ok a := by
  obtain ⟨hcommands, hencoding⟩ := values_of_read h
  rw [read_written, if_neg hcommands, if_neg hencoding]

end Arguments

end DirectoryListing.CommandLine
