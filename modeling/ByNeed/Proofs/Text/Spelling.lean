/-
Reading leniently what is valid replaces nothing.

The bytes of a character are read back one by one: the first tells how many follow, and in which range the next one is;
each of the others adds six bits.
- `lead_two`, `lead_three`, `lead_four`: first bytes, by the length of the character. Where the range of the next byte is
  narrowed, that of a character is inside it.
- `spell_char`, `decodeLossy_encode`: a character, and then a text, is read back from its bytes.
- `encode_split`: a small byte inside a text is a character of its own, and the text can be cut there.
-/
import ByNeed.Proofs.Text.Quoting

namespace ByNeed.Text

/-! ## The first byte -/

theorem toNat_byte {n : Nat} (hsmall : n < 256) : (UInt8.ofNat n).toNat = n := by
  rw [UInt8.toNat_ofNat']
  omega

theorem lead_one {v : Nat} (hhigh : v ≤ 0x7f) : lead (.ofNat v) = .whole (Char.ofNat v) := by
  simp only [lead, toNat_byte (show v < 256 by omega)]
  rw [if_pos (by omega)]

theorem lead_two {v : Nat} (hlow : 0x7f < v) (hhigh : v ≤ 0x7ff) :
    lead (.ofNat (v / 64 % 32 + 192)) = .begun ⟨v / 64 % 32, 1, 0x80, 0xbf⟩ := by
  simp only [lead, toNat_byte (show v / 64 % 32 + 192 < 256 by omega)]
  rw [if_neg (by omega), if_neg (by omega), if_pos (by omega), Nat.add_sub_cancel]

/-- The next byte is in a narrower range if there are few bits before it, and if they could begin a half of a pair. -/
theorem lead_three {v : Nat} (hlow : 0x7ff < v) (hhigh : v ≤ 0xffff) (hvalid : v < 0xd800 ∨ 0xdfff < v) :
    ∃ least most : UInt8, lead (.ofNat (v / 4096 % 16 + 224)) = .begun ⟨v / 4096 % 16, 2, least, most⟩ ∧
      least.toNat ≤ v / 64 % 64 + 128 ∧ v / 64 % 64 + 128 ≤ most.toNat := by
  have hnarrow : (0xa0 : UInt8).toNat = 160 ∧ (0x9f : UInt8).toNat = 159 := ⟨rfl, rfl⟩
  have hwide : (0x80 : UInt8).toNat = 128 ∧ (0xbf : UInt8).toNat = 191 := ⟨rfl, rfl⟩
  simp only [lead, toNat_byte (show v / 4096 % 16 + 224 < 256 by omega), beq_iff_eq]
  rw [if_neg (by omega), if_neg (by omega), if_neg (by omega)]
  by_cases hfew : v / 4096 % 16 = 0
  · rw [hfew, if_pos rfl]
    exact ⟨0xa0, 0xbf, rfl, by omega, by omega⟩
  · rw [if_neg (by omega)]
    by_cases half : v / 4096 % 16 = 13
    · rw [half, if_pos rfl]
      exact ⟨0x80, 0x9f, rfl, by omega, by omega⟩
    · rw [if_neg (by omega), if_pos (by omega), Nat.add_sub_cancel]
      exact ⟨0x80, 0xbf, rfl, by omega, by omega⟩

/-- The next byte is in a narrower range if there are few bits before it, and if they could begin what is too large. -/
theorem lead_four {v : Nat} (hlow : 0xffff < v) (hhigh : v < 0x110000) :
    ∃ least most : UInt8, lead (.ofNat (v / 262144 % 8 + 240)) = .begun ⟨v / 262144 % 8, 3, least, most⟩ ∧
      least.toNat ≤ v / 4096 % 64 + 128 ∧ v / 4096 % 64 + 128 ≤ most.toNat := by
  have hnarrow : (0x90 : UInt8).toNat = 144 ∧ (0x8f : UInt8).toNat = 143 := ⟨rfl, rfl⟩
  have hwide : (0x80 : UInt8).toNat = 128 ∧ (0xbf : UInt8).toNat = 191 := ⟨rfl, rfl⟩
  simp only [lead, toNat_byte (show v / 262144 % 8 + 240 < 256 by omega), beq_iff_eq]
  rw [if_neg (by omega), if_neg (by omega), if_neg (by omega), if_neg (by omega), if_neg (by omega), if_neg (by omega)]
  by_cases hfew : v / 262144 % 8 = 0
  · rw [hfew, if_pos rfl]
    exact ⟨0x90, 0xbf, rfl, by omega, by omega⟩
  · rw [if_neg (by omega)]
    by_cases hlarge : v / 262144 % 8 = 4
    · rw [hlarge, if_neg (by omega), if_pos rfl]
      exact ⟨0x80, 0x8f, rfl, by omega, by omega⟩
    · rw [if_pos (by omega), Nat.add_sub_cancel]
      exact ⟨0x80, 0xbf, rfl, by omega, by omega⟩

/-! ## The other bytes -/

/-- a byte in range that is not the last adds its bits -/
theorem spell_inner {bits more n : Nat} {least most : UInt8} (hlow : least.toNat ≤ n % 64 + 128)
    (hhigh : n % 64 + 128 ≤ most.toNat) (rest : Bytes) :
    spell (some ⟨bits, more + 2, least, most⟩) (.ofNat (n % 64 + 128) :: rest) =
      spell (some ⟨bits * 64 + n % 64, more + 1, 0x80, 0xbf⟩) rest := by
  have hsize := toNat_byte (show n % 64 + 128 < 256 by omega)
  have hinside : least ≤ .ofNat (n % 64 + 128) ∧ .ofNat (n % 64 + 128) ≤ most := by
    rw [UInt8.le_iff_toNat_le, UInt8.le_iff_toNat_le, hsize]
    exact ⟨hlow, hhigh⟩
  rw [spell, feed, if_pos hinside, hsize]
  simp

/-- the last byte completes the character -/
theorem spell_last {bits n : Nat} (rest : Bytes) :
    spell (some ⟨bits, 1, 0x80, 0xbf⟩) (.ofNat (n % 64 + 128) :: rest) =
      Char.ofNat (bits * 64 + n % 64) :: spell none rest := by
  have hsize := toNat_byte (show n % 64 + 128 < 256 by omega)
  have hleast : (0x80 : UInt8).toNat = 128 := rfl
  have hmost : (0xbf : UInt8).toNat = 191 := rfl
  have hinside : (0x80 : UInt8) ≤ .ofNat (n % 64 + 128) ∧ .ofNat (n % 64 + 128) ≤ (0xbf : UInt8) := by
    rw [UInt8.le_iff_toNat_le, UInt8.le_iff_toNat_le, hsize]
    omega
  rw [spell, feed, if_pos hinside, hsize]
  simp

theorem spell_begun {b : UInt8} {s : Begun} (hbegun : lead b = .begun s) (rest : Bytes) :
    spell none (b :: rest) = spell (some s) rest := by
  simp [spell, feed, start, hbegun]

/-- **A character is read back** from its bytes, whatever follows. -/
theorem spell_char (c : Char) (rest : Bytes) :
    spell none (String.utf8EncodeChar c ++ rest) = c :: spell none rest := by
  have hcode : c.val.toNat = c.toNat := rfl
  have hvalid : c.toNat < 0xd800 ∨ 0xdfff < c.toNat ∧ c.toNat < 0x110000 := c.valid
  have hfull : (0xbf : UInt8).toNat = 191 := rfl
  have hlow : (0x80 : UInt8).toNat = 128 := rfl
  simp only [String.utf8EncodeChar, hcode]
  split_ifs with hone htwo hthree
  · simp [spell, feed, start, lead_one hone]
  · have hwhole : c.toNat / 64 % 32 * 64 + c.toNat % 64 = c.toNat := by omega
    rw [List.cons_append, List.cons_append, spell_begun (lead_two (by omega) htwo), spell_last, hwhole,
      Char.ofNat_toNat]
    rfl
  · obtain ⟨least, most, hbegun, habove, hbelow⟩ := lead_three (Nat.lt_of_not_le htwo) hthree (by omega)
    have hwhole : (c.toNat / 4096 % 16 * 64 + c.toNat / 64 % 64) * 64 + c.toNat % 64 = c.toNat := by omega
    rw [List.cons_append, List.cons_append, List.cons_append, spell_begun hbegun, spell_inner habove hbelow, spell_last,
      hwhole, Char.ofNat_toNat]
    rfl
  · obtain ⟨least, most, hbegun, habove, hbelow⟩ := lead_four (Nat.lt_of_not_le hthree) (by omega)
    have hwhole : ((c.toNat / 262144 % 8 * 64 + c.toNat / 4096 % 64) * 64 + c.toNat / 64 % 64) * 64 + c.toNat % 64 =
        c.toNat := by omega
    rw [List.cons_append, List.cons_append, List.cons_append, List.cons_append, spell_begun hbegun,
      spell_inner habove hbelow, spell_inner (by omega) (by omega), spell_last, hwhole, Char.ofNat_toNat]
    rfl

/-- **A text is read back** from its bytes, and nothing is replaced. -/
theorem decodeLossy_encode (s : String) : decodeLossy (encode s) = s := by
  have heach : ∀ cs : List Char, spell none (cs.flatMap String.utf8EncodeChar) = cs := by
    intro cs
    induction cs with
    | nil => rfl
    | cons c cs ih => rw [List.flatMap_cons, spell_char, ih]
  rw [decodeLossy, encode_eq_flatMap, heach, String.ofList_toList]

/-! ## Cutting texts -/

theorem encode_append (s t : String) : encode (s ++ t) = encode s ++ encode t := by
  rw [encode_eq_flatMap, encode_eq_flatMap, encode_eq_flatMap, String.toList_append, List.flatMap_append]

theorem encode_join (texts : List String) : encode (String.join texts) = texts.flatMap encode := by
  induction texts with
  | nil => rfl
  | cons s texts ih => rw [String.join_cons, encode_append, ih, List.flatMap_cons]

theorem encode_injective {s t : String} (hsame : encode s = encode t) : s = t := by
  rw [← decodeLossy_encode s, hsame, decodeLossy_encode]

/-- a small byte comes from a character of its own -/
theorem chars_split {b : UInt8} (hsmall : b.toNat < 128) {cs : List Char} {front back : Bytes}
    (hsplit : cs.flatMap String.utf8EncodeChar = front ++ b :: back) :
    ∃ ds es : List Char, ds.flatMap String.utf8EncodeChar = front ++ [b] ∧ es.flatMap String.utf8EncodeChar = back := by
  induction cs generalizing front with
  | nil => simp at hsplit
  | cons c cs ih =>
    rw [List.flatMap_cons] at hsplit
    rcases List.append_eq_append_iff.1 hsplit with ⟨more, rfl, hrest⟩ | ⟨inside, hwhole, hrest⟩
    · obtain ⟨ds, es, hfirst, hsecond⟩ := ih hrest
      exact ⟨c :: ds, es, by rw [List.flatMap_cons, hfirst, List.append_assoc], hsecond⟩
    · cases inside with
      | nil =>
        have hnext : cs.flatMap String.utf8EncodeChar = [] ++ b :: back := hrest.symm
        obtain ⟨ds, es, hfirst, hsecond⟩ := ih hnext
        rw [List.append_nil] at hwhole
        exact ⟨c :: ds, es, by rw [List.flatMap_cons, hfirst, hwhole]; rfl, hsecond⟩
      | cons b' inside =>
        -- the byte is one of this character, so it is all of it
        obtain ⟨rfl, hafter⟩ := List.cons.inj hrest
        have hmem : b ∈ String.utf8EncodeChar c := by simp [hwhole]
        have hsame : b.toNat = c.toNat := (byte_of_char hmem).resolve_right (by omega)
        obtain rfl : Char.ofNat b.toNat = c := by rw [hsame, Char.ofNat_toNat]
        have hsingle := encode_small hsmall
        rw [hsingle] at hwhole
        have hlength := congrArg List.length hwhole
        simp only [List.length_append, List.length_cons, List.length_nil] at hlength
        obtain rfl : front = [] := List.length_eq_zero_iff.1 (by omega)
        obtain rfl : inside = [] := List.length_eq_zero_iff.1 (by omega)
        exact ⟨[Char.ofNat b.toNat], cs, by rw [List.flatMap_singleton, hsingle]; rfl, hafter.symm⟩

/-- **Where a text can be cut.** What is before a small byte and what is after it are texts. -/
theorem encode_split {b : UInt8} (hsmall : b.toNat < 128) {s : String} {front back : Bytes}
    (hsplit : encode s = front ++ b :: back) : ∃ t u, encode t = front ++ [b] ∧ encode u = back := by
  rw [encode_eq_flatMap] at hsplit
  obtain ⟨ds, es, hfirst, hsecond⟩ := chars_split hsmall hsplit
  refine ⟨String.ofList ds, String.ofList es, ?_, ?_⟩
  · rw [encode_eq_flatMap, String.toList_ofList, hfirst]
  · rw [encode_eq_flatMap, String.toList_ofList, hsecond]

end ByNeed.Text
