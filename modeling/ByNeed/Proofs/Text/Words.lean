/-
Words: white space around them, the case of their letters, and the numbers that they spell.

What a function reads out of a word is held against a rule that says which words are meant.
- `trim_eq_iff`: what is left of a text without the white space around it.
- `lowerAscii_eq_iff`: words that differ at most in the case of ASCII letters.
- `natural?_eq_some_iff`: numerals, with a plus sign or without, with leading zeros or without, up to a bound.
-/
import Mathlib.Data.Nat.Digits.Defs
import Mathlib.Data.List.Forall2
import Mathlib.Data.List.Induction
import Mathlib.Data.List.TakeWhile
import ByNeed.Text

namespace ByNeed.Text

/-! ## White space -/

/-- the code points that have the property White_Space -/
def blanks : List Nat :=
  [0x9, 0xa, 0xb, 0xc, 0xd, 0x20, 0x85, 0xa0, 0x1680, 0x2000, 0x2001, 0x2002, 0x2003, 0x2004, 0x2005, 0x2006, 0x2007,
    0x2008, 0x2009, 0x200a, 0x2028, 0x2029, 0x202f, 0x205f, 0x3000]

theorem isBlank_iff {c : Char} : isBlank c = true ↔ c.toNat ∈ blanks := by
  simp only [isBlank, blanks, List.mem_cons, List.not_mem_nil, Bool.or_eq_true, Bool.and_eq_true, decide_eq_true_eq,
    beq_iff_eq, or_false]
  omega

/-- `word` stands in `text` with white space around it and nothing else, and neither begins nor ends with white space -/
structure Trimmed (text word : List Char) : Prop where
  around : ∃ front back, text = front ++ (word ++ back) ∧ (∀ c ∈ front, c.toNat ∈ blanks) ∧ ∀ c ∈ back, c.toNat ∈ blanks
  first : ∀ c ∈ word.head?, c.toNat ∉ blanks
  last : ∀ c ∈ word.getLast?, c.toNat ∉ blanks

theorem head?_dropWhile_blank (cs : List Char) : ∀ c ∈ (cs.dropWhile isBlank).head?, c.toNat ∉ blanks := by
  intro c hfirst
  have hstops := cs.head?_dropWhile_not isBlank
  rw [Option.mem_def.1 hfirst] at hstops
  rw [← isBlank_iff, Bool.not_eq_true]
  exact hstops

theorem dropWhile_blank {front rest : List Char} (hblank : ∀ c ∈ front, c.toNat ∈ blanks)
    (hfirst : ∀ c ∈ rest.head?, c.toNat ∉ blanks) : (front ++ rest).dropWhile isBlank = rest := by
  rw [List.dropWhile_append_of_pos fun c hc => isBlank_iff.2 (hblank c hc)]
  cases rest with
  | nil => rfl
  | cons c rest => exact List.dropWhile_cons_of_neg fun hblank => hfirst c rfl (isBlank_iff.1 hblank)

theorem trimmed_trim (cs : List Char) : Trimmed cs (trim cs) := by
  let rest := cs.dropWhile isBlank
  let back := (rest.reverse.takeWhile isBlank).reverse
  have hsplit : rest = trim cs ++ back := by
    rw [← List.reverse_inj, List.reverse_append, List.reverse_reverse, trim, List.reverse_reverse]
    exact List.takeWhile_append_dropWhile.symm
  refine ⟨⟨cs.takeWhile isBlank, back, ?_, ?_, ?_⟩, ?_, ?_⟩
  · rw [← hsplit]
    exact List.takeWhile_append_dropWhile.symm
  · exact fun c hc => isBlank_iff.1 (List.mem_takeWhile_imp hc)
  · exact fun c hc => isBlank_iff.1 (List.mem_takeWhile_imp (List.mem_reverse.1 hc))
  · intro c hfirst
    apply head?_dropWhile_blank cs
    change c ∈ rest.head?
    rw [hsplit, List.head?_append, Option.mem_def.1 hfirst]
    rfl
  · rw [trim, List.getLast?_reverse]
    exact head?_dropWhile_blank _

/-- **What trimming leaves**, and nothing else is a word with white space around it. -/
theorem trim_eq_iff {text word : List Char} : trim text = word ↔ Trimmed text word := by
  constructor
  · rintro rfl
    exact trimmed_trim text
  · rintro ⟨⟨front, back, rfl, hfront, hback⟩, hfirst, hlast⟩
    cases word with
    | nil =>
      -- all of the text is white space, wherever the word is thought to stand
      have hblank : ∀ c ∈ front ++ back, c.toNat ∈ blanks := List.forall_mem_append.2 ⟨hfront, hback⟩
      rw [List.nil_append, trim, List.dropWhile_eq_nil_iff.2 fun c hc => isBlank_iff.2 (hblank c hc)]
      rfl
    | cons c word =>
      have hbegins : (front ++ (c :: word ++ back)).dropWhile isBlank = c :: word ++ back :=
        dropWhile_blank hfront hfirst
      have hends : (c :: word ++ back).reverse.dropWhile isBlank = (c :: word).reverse := by
        rw [List.reverse_append]
        refine dropWhile_blank (fun c hc => hback c (List.mem_reverse.1 hc)) ?_
        rw [List.head?_reverse]
        exact hlast
      rw [trim, hbegins, hends, List.reverse_reverse]

/-! ## The case of letters -/

/-- the same character, or one ASCII letter in both cases -/
def SameLetter (c d : Char) : Prop :=
  c = d ∨ (c.isUpper ∧ d.toNat = c.toNat + 32) ∨ (d.isUpper ∧ c.toNat = d.toNat + 32)

/-- words that differ at most in the case of ASCII letters -/
abbrev SameWord : List Char → List Char → Prop := List.Forall₂ SameLetter

theorem isUpper_iff {c : Char} : c.isUpper = true ↔ 65 ≤ c.toNat ∧ c.toNat ≤ 90 :=
  decide_eq_true_iff.trans (and_congr UInt32.le_iff_toNat_le UInt32.le_iff_toNat_le)

theorem toNat_toLower (c : Char) : c.toLower.toNat = if c.isUpper then c.toNat + 32 else c.toNat := by
  split_ifs with hupper
  · have hrange := isUpper_iff.1 hupper
    have hstep : (32 : UInt32).toNat = 32 := rfl
    have hlower : c.toLower.val = c.val + 32 := congrArg Char.val (dif_pos (of_decide_eq_true hupper))
    rw [← Char.toNat_val, hlower, UInt32.toNat_add, Char.toNat_val]
    omega
  · exact congrArg Char.toNat (dif_neg (mt decide_eq_true hupper))

theorem toLower_eq_iff {c d : Char} : c.toLower = d.toLower ↔ SameLetter c d := by
  rw [← Char.toNat_inj, toNat_toLower, toNat_toLower, SameLetter, ← Char.toNat_inj]
  simp only [isUpper_iff]
  split_ifs <;> omega

/-- in the other case a capital is a letter still -/
theorem SameLetter.le_toNat {c d : Char} (hsame : SameLetter c d) (hupper : c.isUpper = true) : 65 ≤ d.toNat := by
  have hrange := isUpper_iff.1 hupper
  rcases hsame with rfl | ⟨-, hlower⟩ | ⟨hupper', -⟩
  · exact hrange.1
  · omega
  · exact (isUpper_iff.1 hupper').1

/-- **Letters in lower case** tell apart just those words that differ in more than case. -/
theorem lowerAscii_eq_iff {cs ds : List Char} : lowerAscii cs = lowerAscii ds ↔ SameWord cs ds := by
  rw [lowerAscii, lowerAscii, ← List.forall₂_eq_eq_eq, List.forall₂_map_left_iff, List.forall₂_map_right_iff]
  simp only [toLower_eq_iff]

/-! ## Numerals -/

/-- decimal digits of value `n`, the first one counting most -/
def Decimal (cs : List Char) (n : Nat) : Prop :=
  ∃ ds : List Nat, ds ≠ [] ∧ (∀ d ∈ ds, d < 10) ∧ cs = ds.map Nat.digitChar ∧ n = Nat.ofDigits 10 ds.reverse

/-- decimal digits of value `n`, with a plus sign in front of them or without -/
def Numeral (cs : List Char) (n : Nat) : Prop := ∃ digits, (cs = digits ∨ cs = '+' :: digits) ∧ Decimal digits n

theorem isDigit_iff {c : Char} : c.isDigit = true ↔ 48 ≤ c.toNat ∧ c.toNat ≤ 57 := by
  simp [Char.isDigit, UInt32.le_iff_toNat_le]

theorem toNat_digitChar {d : Nat} (hsmall : d < 10) : d.digitChar.toNat - '0'.toNat = d := by
  have heach : ∀ d < 10, d.digitChar.toNat - '0'.toNat = d := by decide
  exact heach d hsmall

theorem digitChar_toNat {c : Char} (hdigit : c.isDigit = true) :
    c.toNat - '0'.toNat < 10 ∧ (c.toNat - '0'.toNat).digitChar = c := by
  have heach : ∀ n < 58, 48 ≤ n → n - 48 < 10 ∧ (n - 48).digitChar = Char.ofNat n := by decide
  have hrange := isDigit_iff.1 hdigit
  have hsame := heach c.toNat (by omega) hrange.1
  rwa [Char.ofNat_toNat] at hsame

/-- reading digits from the left adds up their value -/
theorem foldl_digitChar {ds : List Nat} (hsmall : ∀ d ∈ ds, d < 10) :
    (ds.map Nat.digitChar).foldl (fun n c => n * 10 + (c.toNat - '0'.toNat)) 0 = Nat.ofDigits 10 ds.reverse := by
  induction ds using List.reverseRecOn with
  | nil => rfl
  | append_singleton ds d ih =>
    have hbefore : ∀ d ∈ ds, d < 10 := fun d hd => hsmall d (List.mem_append_left _ hd)
    have hlast : d < 10 := hsmall d (List.mem_append_right _ (List.mem_singleton_self d))
    rw [List.map_append, List.foldl_append, ih hbefore, List.reverse_append]
    simp only [List.map_cons, List.map_nil, List.foldl_cons, List.foldl_nil, toNat_digitChar hlast]
    rw [List.reverse_singleton, List.singleton_append, Nat.ofDigits_cons]
    omega

theorem digits?_eq_some_iff {cs : List Char} {n : Nat} : digits? cs = some n ↔ Decimal cs n := by
  constructor
  · intro hread
    simp only [digits?] at hread
    split_ifs at hread with hdigits
    obtain ⟨hnonempty, hall⟩ : cs ≠ [] ∧ ∀ c ∈ cs, c.isDigit = true := by simpa using hdigits
    let ds := cs.map fun c => c.toNat - '0'.toNat
    have hsmall : ∀ d ∈ ds, d < 10 := by
      intro d hd
      obtain ⟨c, hc, rfl⟩ := List.mem_map.1 hd
      exact (digitChar_toNat (hall c hc)).1
    have hspelled : cs = ds.map Nat.digitChar := by
      rw [List.map_map]
      exact (List.map_id cs).symm.trans (List.map_congr_left fun c hc => (digitChar_toNat (hall c hc)).2.symm)
    rw [hspelled, foldl_digitChar hsmall] at hread
    exact ⟨ds, by simpa [ds] using hnonempty, hsmall, hspelled, (Option.some.inj hread).symm⟩
  · rintro ⟨ds, hnonempty, hsmall, rfl, rfl⟩
    have hdigits : (!(ds.map Nat.digitChar).isEmpty && (ds.map Nat.digitChar).all Char.isDigit) = true := by
      simpa [hnonempty, Nat.isDigit_digitChar] using hsmall
    rw [digits?, if_pos hdigits, foldl_digitChar hsmall]

theorem Decimal.head {cs : List Char} {n : Nat} (hdecimal : Decimal cs n) :
    ∃ c rest, cs = c :: rest ∧ c.isDigit = true := by
  obtain ⟨ds, hnonempty, hsmall, rfl, -⟩ := hdecimal
  cases ds with
  | nil => exact absurd rfl hnonempty
  | cons d ds =>
    refine ⟨d.digitChar, ds.map Nat.digitChar, rfl, ?_⟩
    rw [Nat.isDigit_digitChar, decide_eq_true_eq]
    exact hsmall d List.mem_cons_self

/-- a numeral begins with a plus sign or a digit -/
theorem Numeral.head {cs : List Char} {n : Nat} (hnumeral : Numeral cs n) :
    ∃ c rest, cs = c :: rest ∧ (c = '+' ∨ c.isDigit = true) := by
  obtain ⟨digits, rfl | rfl, hdecimal⟩ := hnumeral
  · obtain ⟨c, rest, rfl, hdigit⟩ := hdecimal.head
    exact ⟨c, rest, rfl, .inr hdigit⟩
  · exact ⟨'+', digits, rfl, .inl rfl⟩

theorem numeral_plus_iff {cs : List Char} {n : Nat} : Numeral ('+' :: cs) n ↔ Decimal cs n := by
  constructor
  · rintro ⟨digits, rfl | hsame, hdecimal⟩
    · obtain ⟨c, rest, hsame, hdigit⟩ := hdecimal.head
      cases hsame
      exact absurd hdigit (by decide)
    · cases hsame
      exact hdecimal
  · exact fun hdecimal => ⟨cs, .inr rfl, hdecimal⟩

theorem numeral_iff_of_ne {cs : List Char} {n : Nat} (hunsigned : ∀ rest, cs ≠ '+' :: rest) :
    Numeral cs n ↔ Decimal cs n := by
  constructor
  · rintro ⟨digits, rfl | rfl, hdecimal⟩
    · exact hdecimal
    · exact absurd rfl (hunsigned digits)
  · exact fun hdecimal => ⟨cs, .inl rfl, hdecimal⟩

/-- **Numerals are read** if they are below the bound, and nothing else is. -/
theorem natural?_eq_some_iff {bound n : Nat} {cs : List Char} :
    natural? bound cs = some n ↔ Numeral cs n ∧ n < bound := by
  have hbounded (digits : List Char) :
      (digits? digits).filter (· < bound) = some n ↔ Decimal digits n ∧ n < bound := by
    simp [Option.filter_eq_some_iff, digits?_eq_some_iff]
  unfold natural?
  split
  · rw [hbounded, numeral_plus_iff]
  · next hunsigned => rw [hbounded, numeral_iff_of_ne hunsigned]

theorem size?_eq_some_iff {cs : List Char} {n : Nat} : size? cs = some n ↔ Numeral cs n ∧ n < 2 ^ 64 :=
  natural?_eq_some_iff

end ByNeed.Text
