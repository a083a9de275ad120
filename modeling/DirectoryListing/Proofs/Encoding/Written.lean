import DirectoryListing.Encoding

/-!
# Text written as bytes

A text is written as bytes if the encoding has a form for each of its characters. Reading these
bytes gives the text back: of the bytes that start a character in UTF-8 the first tells how many
there are, and the others bring six bits each. The narrower ranges that some first bytes ask of the
second one leave out no character.

## Main definitions

* `Encoding.encodeChar? e c`, `Encoding.encode? e t`: a character, and a text, written as bytes
* `Encoding.bound e`: the first code point that an encoding has no form for

## Main results

* `Encoding.isSome_encode?_iff`: the texts that can be written
* `Encoding.decodeUtf8_encodeChar`: a character in UTF-8 is read as itself
* `Encoding.decode_of_encode?`: what was written is read as it was
-/

namespace DirectoryListing.Encoding

variable {e : Encoding} {c : Char} {t : Text} {b owed least greatest bits : Nat} {bytes : List UInt8}

/-! ## Writing -/

/-- The bytes that a character is written as, if the encoding has any for it. -/
def encodeChar? : Encoding → Char → Option (List UInt8)
  | utf8, c => some (String.utf8EncodeChar c)
  | latin1, c => if c.toNat < 0x100 then some [UInt8.ofNat c.toNat] else none
  | ascii, c => if c.toNat < 0x80 then some [UInt8.ofNat c.toNat] else none

/-- The bytes that a text is written as, if the encoding has any for each of its characters. -/
def encode? (e : Encoding) : Text → Option (List UInt8)
  | [] => some []
  | c :: t =>
    match e.encodeChar? c, e.encode? t with
    | some bytes, some later => some (bytes ++ later)
    | _, _ => none

/-- The first code point that an encoding has no form for. -/
def bound : Encoding → Nat
  | utf8 => 0x110000
  | latin1 => 0x100
  | ascii => 0x80

theorem isSome_encodeChar?_iff : (e.encodeChar? c).isSome = true ↔ c.toNat < e.bound := by
  cases e with
  | utf8 =>
    have valid : c.toNat < 0xD800 ∨ 0xDFFF < c.toNat ∧ c.toNat < 0x110000 := c.valid
    have hc : c.toNat < 0x110000 := by omega
    simpa [encodeChar?, bound] using hc
  | latin1 | ascii => simp [encodeChar?, bound]

/-- **The texts that can be written** are those whose characters the encoding has forms for. -/
theorem isSome_encode?_iff : (e.encode? t).isSome = true ↔ ∀ c ∈ t, c.toNat < e.bound := by
  induction t with
  | nil => simp [encode?]
  | cons c t ih =>
    rw [List.forall_mem_cons, ← isSome_encodeChar?_iff, ← ih, encode?]
    cases e.encodeChar? c <;> cases e.encode? t <;> simp

/-! ## UTF-8 -/

/-- The first byte of several. -/
theorem decodeUtf8_lead {state : Utf8State} (hb : b < 0x100) (hlead : 0x80 ≤ b)
    (h : Utf8State.ofLead? b = some state) :
    decodeUtf8 .between (UInt8.ofNat b :: bytes) = decodeUtf8 state bytes := by
  have value : (UInt8.ofNat b).toNat = b := UInt8.toNat_ofNat_of_lt' hb
  rw [decodeUtf8, value, nextByte, startByte, if_neg (by omega), h]
  rfl

/-- A byte that is not the last of its character. -/
theorem decodeUtf8_inner (hb : b < 0x100) (howed : 1 < owed) (hleast : least ≤ b)
    (hgreatest : b ≤ greatest) :
    decodeUtf8 (.inside owed least greatest bits) (UInt8.ofNat b :: bytes) =
      decodeUtf8 (.inside (owed - 1) 0x80 0xBF (bits * 64 + (b - 0x80))) bytes := by
  have value : (UInt8.ofNat b).toNat = b := UInt8.toNat_ofNat_of_lt' hb
  rw [decodeUtf8, value, nextByte, if_pos ⟨hleast, hgreatest⟩]
  simp only [if_neg (Nat.not_le.mpr howed)]
  rfl

/-- The last byte of a character. -/
theorem decodeUtf8_last (hb : b < 0x100) (hleast : least ≤ b) (hgreatest : b ≤ greatest) :
    decodeUtf8 (.inside 1 least greatest bits) (UInt8.ofNat b :: bytes) =
      Char.ofNat (bits * 64 + (b - 0x80)) :: decodeUtf8 .between bytes := by
  have value : (UInt8.ofNat b).toNat = b := UInt8.toNat_ofNat_of_lt' hb
  rw [decodeUtf8, value, nextByte, if_pos ⟨hleast, hgreatest⟩]
  rfl

/-- The first of two bytes. -/
theorem ofLead?_two (hlow : 0x80 ≤ b) (hhigh : b ≤ 0x7FF) :
    Utf8State.ofLead? (b / 64 % 32 + 192) = some (.inside 1 0x80 0xBF (b / 64)) := by
  have hbits : b / 64 % 32 = b / 64 := by omega
  rw [Utf8State.ofLead?, if_neg (by omega), if_pos (by omega), hbits, Nat.add_sub_cancel]

/-- The first of three bytes allows the second one. -/
theorem ofLead?_three (hlow : 0x800 ≤ b) (hhigh : b ≤ 0xFFFF) (hvalid : b < 0xD800 ∨ 0xDFFF < b) :
    ∃ least greatest, Utf8State.ofLead? (b / 4096 % 16 + 224) =
        some (.inside 2 least greatest (b / 4096)) ∧
      least ≤ b / 64 % 64 + 128 ∧ b / 64 % 64 + 128 ≤ greatest := by
  have hbits : b / 4096 % 16 = b / 4096 := by omega
  rw [hbits, Utf8State.ofLead?, if_neg (by omega), if_neg (by omega)]
  split
  · exact ⟨0xA0, 0xBF, by rw [show b / 4096 = 0 by omega], by omega, by omega⟩
  · split
    · exact ⟨0x80, 0x9F, by rw [show b / 4096 = 0xD by omega], by omega, by omega⟩
    · exact ⟨0x80, 0xBF, by rw [if_pos (by omega), Nat.add_sub_cancel], by omega, by omega⟩

/-- The first of four bytes allows the second one. -/
theorem ofLead?_four (hlow : 0xFFFF < b) (hvalid : b < 0x110000) :
    ∃ least greatest, Utf8State.ofLead? (b / 262144 % 8 + 240) =
        some (.inside 3 least greatest (b / 262144)) ∧
      least ≤ b / 4096 % 64 + 128 ∧ b / 4096 % 64 + 128 ≤ greatest := by
  have hbits : b / 262144 % 8 = b / 262144 := by omega
  rw [hbits, Utf8State.ofLead?, if_neg (by omega), if_neg (by omega), if_neg (by omega),
    if_neg (by omega), if_neg (by omega)]
  split
  · exact ⟨0x90, 0xBF, by rw [show b / 262144 = 0 by omega], by omega, by omega⟩
  · split
    · exact ⟨0x80, 0xBF, by rw [Nat.add_sub_cancel], by omega, by omega⟩
    · exact ⟨0x80, 0x8F, by rw [if_pos (by omega), show b / 262144 = 4 by omega], by omega,
        by omega⟩

/-- **A character in UTF-8** is read as itself, whatever follows. -/
theorem decodeUtf8_encodeChar (c : Char) (bytes : List UInt8) :
    decodeUtf8 .between (String.utf8EncodeChar c ++ bytes) = c :: decodeUtf8 .between bytes := by
  have valid : c.toNat < 0xD800 ∨ 0xDFFF < c.toNat ∧ c.toNat < 0x110000 := c.valid
  have value : Char.ofNat c.toNat = c := Char.ofNat_toNat c
  rw [String.utf8EncodeChar]
  simp only [show c.val.toNat = c.toNat from rfl]
  generalize c.toNat = b at valid value
  split
  · rename_i hb
    have single : (UInt8.ofNat b).toNat = b :=
      UInt8.toNat_ofNat_of_lt' (Nat.lt_of_le_of_lt hb (by decide))
    rw [List.singleton_append, decodeUtf8, single, nextByte, startByte, if_pos (by omega), value]
    rfl
  · split
    · have sum : b / 64 * 64 + (b % 64 + 128 - 0x80) = b := by omega
      simp only [List.cons_append, List.nil_append]
      rw [decodeUtf8_lead (by omega) (by omega) (ofLead?_two (by omega) (by omega)),
        decodeUtf8_last (by omega) (by omega) (by omega), sum, value]
    · split
      · obtain ⟨least, greatest, lead, hleast, hgreatest⟩ :=
          ofLead?_three (b := b) (by omega) (by omega) (by omega)
        have sum : (b / 4096 * 64 + (b / 64 % 64 + 128 - 0x80)) * 64 + (b % 64 + 128 - 0x80) = b := by
          omega
        simp only [List.cons_append, List.nil_append]
        rw [decodeUtf8_lead (by omega) (by omega) lead,
          decodeUtf8_inner (by omega) (by omega) hleast hgreatest,
          decodeUtf8_last (by omega) (by omega) (by omega), sum, value]
      · obtain ⟨least, greatest, lead, hleast, hgreatest⟩ :=
          ofLead?_four (b := b) (by omega) (by omega)
        have sum : ((b / 262144 * 64 + (b / 4096 % 64 + 128 - 0x80)) * 64 +
            (b / 64 % 64 + 128 - 0x80)) * 64 + (b % 64 + 128 - 0x80) = b := by
          omega
        simp only [List.cons_append, List.nil_append]
        rw [decodeUtf8_lead (by omega) (by omega) lead,
          decodeUtf8_inner (by omega) (by omega) hleast hgreatest,
          decodeUtf8_inner (by omega) (by omega) (by omega) (by omega),
          decodeUtf8_last (by omega) (by omega) (by omega), sum, value]

/-! ## All encodings -/

/-- A character is read as itself, whatever follows. -/
theorem decode_encodeChar? {written : List UInt8} (h : e.encodeChar? c = some written)
    (bytes : List UInt8) : e.decode (written ++ bytes) = c :: e.decode bytes := by
  have value : Char.ofNat c.toNat = c := Char.ofNat_toNat c
  cases e with
  | utf8 =>
    cases h
    exact decodeUtf8_encodeChar c bytes
  | latin1 =>
    rw [encodeChar?] at h
    split at h
    · rename_i hc
      cases h
      have single : (UInt8.ofNat c.toNat).toNat = c.toNat := UInt8.toNat_ofNat_of_lt' hc
      rw [List.singleton_append, decode, List.map_cons, single, value, decode]
    · cases h
  | ascii =>
    rw [encodeChar?] at h
    split at h
    · rename_i hc
      cases h
      have single : (UInt8.ofNat c.toNat).toNat = c.toNat :=
        UInt8.toNat_ofNat_of_lt' (Nat.lt_trans hc (by decide))
      rw [List.singleton_append, decode, List.map_cons, single, if_pos hc, value, decode]
    · cases h

/-- **What was written is read as it was.** -/
theorem decode_of_encode? (h : e.encode? t = some bytes) : e.decode bytes = t := by
  induction t generalizing bytes with
  | nil =>
    cases h
    cases e <;> rfl
  | cons c t ih =>
    rw [encode?] at h
    split at h
    · rename_i written later hc ht
      cases h
      rw [decode_encodeChar? hc, ih ht]
    · cases h

end DirectoryListing.Encoding
