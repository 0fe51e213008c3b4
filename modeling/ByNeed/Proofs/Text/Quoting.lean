/-
Literals show no control characters, and their bytes end no line.

A character below 128 is written as one byte, its code; all bytes of other characters are 128 or more. So a byte that
means something to a reader of lines, such as a newline, comes from the character of that code and from no other.
- `char_of_byte`: where the small bytes of a text come from.
- `decode?_concat`: a small byte at the end of a text can be read on its own.
- `quoteWith_visible`: a literal has no control characters.
-/
import ByNeed.Text.Utf8
import ByNeed.Text
import Mathlib.Tactic.SplitIfs

namespace ByNeed.Text

/-! ## Bytes of characters -/

theorem encode_eq_flatMap (s : String) : encode s = s.toList.flatMap String.utf8EncodeChar := by
  obtain ⟨cs, rfl⟩ : ∃ cs, s = String.ofList cs := ⟨s.toList, String.ofList_toList.symm⟩
  rw [encode, String.toUTF8_eq_toByteArray, String.toByteArray_ofList, String.toList_ofList, List.utf8Encode]
  simp

theorem byte_of_char {c : Char} {b : UInt8} (hb : b ∈ String.utf8EncodeChar c) : b.toNat = c.toNat ∨ 128 ≤ b.toNat := by
  have hcode : c.val.toNat = c.toNat := rfl
  simp only [String.utf8EncodeChar, hcode] at hb
  split_ifs at hb with hone htwo hthree
  · left
    rw [List.mem_singleton.1 hb, UInt8.toNat_ofNat']
    omega
  · right
    simp only [List.mem_cons, List.not_mem_nil, or_false] at hb
    rcases hb with rfl | rfl <;> simp only [UInt8.toNat_ofNat'] <;> omega
  · right
    simp only [List.mem_cons, List.not_mem_nil, or_false] at hb
    rcases hb with rfl | rfl | rfl <;> simp only [UInt8.toNat_ofNat'] <;> omega
  · right
    simp only [List.mem_cons, List.not_mem_nil, or_false] at hb
    rcases hb with rfl | rfl | rfl | rfl <;> simp only [UInt8.toNat_ofNat'] <;> omega

/-- a small byte is the code of a character -/
theorem char_of_byte {s : String} {b : UInt8} (hb : b ∈ encode s) (hsmall : b.toNat < 128) :
    ∃ c ∈ s.toList, c.toNat = b.toNat := by
  rw [encode_eq_flatMap] at hb
  obtain ⟨c, hc, hb⟩ := List.mem_flatMap.1 hb
  rcases byte_of_char hb with hsame | hbig
  · exact ⟨c, hc, hsame.symm⟩
  · omega

theorem encode_push (s : String) (c : Char) : encode (s.push c) = encode s ++ String.utf8EncodeChar c := by
  rw [encode_eq_flatMap, encode_eq_flatMap, String.toList_push, List.flatMap_append, List.flatMap_singleton]

theorem encode_small {b : UInt8} (hsmall : b.toNat < 128) : String.utf8EncodeChar (Char.ofNat b.toNat) = [b] := by
  have hvalid : b.toNat.isValidChar := .inl (by omega)
  have hcode : (Char.ofNat b.toNat).val.toNat = b.toNat := by
    rw [Char.ofNat, dif_pos hvalid]
    rfl
  simp only [String.utf8EncodeChar, hcode]
  rw [if_pos (by omega), UInt8.ofNat_toNat]

/-! ## Texts of bytes -/

/-- bytes spell a text if and only if they are its bytes -/
theorem decode?_eq_some_iff {bytes : Bytes} {s : String} : decode? bytes = some s ↔ encode s = bytes := by
  unfold decode? String.fromUTF8? encode
  split_ifs with hvalid
  · constructor
    · intro hsame
      cases hsame
      rfl
    · rintro rfl
      rfl
  · constructor
    · intro hnone
      cases hnone
    · rintro rfl
      exact absurd s.isValidUTF8 hvalid

/-- A small byte at the end is a character of its own. -/
theorem decode?_concat {b : UInt8} (hsmall : b.toNat < 128) (bytes : Bytes) :
    decode? (bytes ++ [b]) = (decode? bytes).map fun s => s.push (Char.ofNat b.toNat) := by
  ext s
  simp only [Option.map_eq_some_iff, decode?_eq_some_iff]
  constructor
  · intro hspelled
    rcases List.eq_nil_or_concat s.toList with hnone | ⟨cs, c, hsplit⟩
    · rw [encode_eq_flatMap, hnone] at hspelled
      simp at hspelled
    · obtain rfl : s = (String.ofList cs).push c := by
        rw [← String.toList_inj, String.toList_push, String.toList_ofList, hsplit, List.concat_eq_append]
      rw [encode_push] at hspelled
      -- the last byte of the last character is small, so it is the whole character
      have hlast : b ∈ String.utf8EncodeChar c := by
        have hends := congrArg List.getLast? hspelled
        rw [List.getLast?_append, List.getLast?_concat, List.getLast?_eq_some_getLast String.utf8EncodeChar_ne_nil,
          Option.some_or] at hends
        exact Option.some.inj hends ▸ List.getLast_mem _
      have hsame : b.toNat = c.toNat := (byte_of_char hlast).resolve_right (by omega)
      obtain rfl : Char.ofNat b.toNat = c := by rw [hsame, Char.ofNat_toNat]
      rw [encode_small hsmall] at hspelled
      exact ⟨String.ofList cs, List.append_cancel_right hspelled, rfl⟩
  · rintro ⟨t, rfl, rfl⟩
    rw [encode_push, encode_small hsmall]

/-! ## Characters of literals -/

theorem digit_visible {c : Char} (hdigit : c.isDigit = true) : isControl c = false := by
  simp only [Char.isDigit, Bool.and_eq_true, decide_eq_true_eq, UInt32.le_iff_toNat_le] at hdigit
  have hcode : c.val.toNat = c.toNat := rfl
  have hlow : '0'.val.toNat = 48 := rfl
  have hhigh : '9'.val.toNat = 57 := rfl
  simp only [isControl, Bool.or_eq_false_iff, decide_eq_false_iff_not, beq_eq_false_iff_ne]
  omega

theorem escape_visible {quote c d : Char} (hd : d ∈ escape quote c) : isControl d = false := by
  have hbackslash : isControl '\\' = false := rfl
  unfold escape at hd
  split_ifs at hd with hcontrol hspecial
  · rcases List.mem_cons.1 hd with rfl | hd
    · exact hbackslash
    · exact digit_visible (Nat.isDigit_of_mem_toDigits (by decide) (by decide) hd)
  · simp only [List.mem_cons, List.not_mem_nil, or_false] at hd
    rcases hd with rfl | rfl
    · exact hbackslash
    · exact Bool.eq_false_iff.2 hcontrol
  · rw [List.mem_singleton.1 hd]
    exact Bool.eq_false_iff.2 hcontrol

/-- **A literal has no control characters.** -/
theorem quoteWith_visible {quote d : Char} {cs : List Char} (hvisible : isControl quote = false)
    (hd : d ∈ quoteWith quote cs) : isControl d = false := by
  simp only [quoteWith, List.mem_cons, List.mem_append, List.mem_flatMap, List.not_mem_nil, or_false] at hd
  rcases hd with rfl | ⟨c, -, hd⟩ | rfl
  · exact hvisible
  · exact escape_visible hd
  · exact hvisible

/-- so its bytes are not those of control characters -/
theorem byte_of_quoteString {s : String} {b : UInt8} (hb : b ∈ encode (quoteString s)) : 32 ≤ b.toNat := by
  refine Nat.le_of_not_lt fun hsmall => ?_
  obtain ⟨c, hc, hcode⟩ := char_of_byte hb (by omega)
  rw [quoteString, String.toList_ofList] at hc
  have hvisible := quoteWith_visible rfl hc
  simp only [isControl, hcode, Bool.or_eq_false_iff, decide_eq_false_iff_not] at hvisible
  omega

end ByNeed.Text
