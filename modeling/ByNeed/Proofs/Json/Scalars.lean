/-
Reading undoes writing, for the parts of a JSON text that have no brackets.

- `Number.read_chars`: every number is read back as it was written, sign, places and exponent included.
- `unquoted_escaped`: a string is read back whatever its characters are.
Both hold in front of any text that does not go on with the same token.
-/
import Mathlib.Data.List.Basic
import Mathlib.Data.List.TakeDrop
import ByNeed.Json

namespace ByNeed.Json

/-! ## Digits -/

/-- the text does not go on with a digit -/
def NoDigit : List Char → Prop
  | [] => True
  | c :: _ => c.isDigit = false

/-- the text cannot continue a number -/
def Ends : List Char → Prop
  | [] => True
  | c :: _ => c.isDigit = false ∧ c ≠ '.' ∧ c ≠ 'e'

theorem Ends.noDigit {cs : List Char} (h : Ends cs) : NoDigit cs := by
  cases cs with
  | nil => trivial
  | cons c cs => exact h.1

def Row (cs : List Char) : Prop := ∀ c ∈ cs, c.isDigit = true

theorem row_toDigits (n : Nat) : Row (Nat.toDigits 10 n) :=
  fun _ h => Nat.isDigit_of_mem_toDigits (by decide) (by decide) h

theorem span_row {row rest : List Char} (hrow : Row row) (hrest : NoDigit rest) :
    (row ++ rest).span Char.isDigit = (row, rest) := by
  have hstop : rest.takeWhile Char.isDigit = [] ∧ rest.dropWhile Char.isDigit = rest := by
    cases rest with
    | nil => simp
    | cons c cs =>
      have hc : c.isDigit = false := hrest
      simp [hc]
  simp [List.span_eq_takeWhile_dropWhile, List.takeWhile_append_of_pos hrow, List.dropWhile_append_of_pos hrow, hstop]

theorem digits_of_row {row : List Char} (hrow : Row row) (hne : row ≠ []) :
    Text.digits? row = some (Nat.ofDigitChars 10 row 0) := by
  have hall : row.all Char.isDigit = true := List.all_eq_true.2 hrow
  simp [Text.digits?, hall, hne, Nat.ofDigitChars_eq_foldl, Nat.mul_comm]

theorem digits_toDigits (n : Nat) : Text.digits? (Nat.toDigits 10 n) = some n := by
  rw [digits_of_row (row_toDigits n) Nat.toDigits_ne_nil, Nat.ofDigitChars_ten_toDigits]

theorem head_toDigits {n : Nat} (hn : 0 < n) : (Nat.toDigits 10 n).head? ≠ some '0' := by
  induction n using Nat.strongRecOn with
  | ind n ih =>
    by_cases hlt : n < 10
    · have hall : ∀ m, m < 10 → 0 < m → m.digitChar ≠ '0' := by decide
      simpa [Nat.toDigits_of_lt_base hlt] using hall n hlt hn
    · rw [Nat.toDigits_of_base_le (by decide) (by omega), List.head?_append_of_ne_nil _ Nat.toDigits_ne_nil]
      exact ih (n / 10) (by omega) (by omega)

/-- Several digits have no zero in front. -/
theorem toDigits_ne_zero_cons (n : Nat) (c : Char) (cs : List Char) : Nat.toDigits 10 n ≠ '0' :: c :: cs := by
  intro h
  rcases Nat.eq_zero_or_pos n with rfl | hn
  · simp at h
  · exact head_toDigits hn (by rw [h]; rfl)

theorem toString_int (n : Int) :
    (toString n).toList = (if n < 0 then ['-'] else []) ++ Nat.toDigits 10 n.natAbs := by
  cases n with
  | ofNat n =>
    have hn : ¬ (Int.ofNat n < 0) := by simp
    simp [Int.toString_eq_repr, Int.repr, Nat.repr_eq_ofList_toDigits]
  | negSucc n => simp [Int.toString_eq_repr, Int.repr, Nat.repr_eq_ofList_toDigits, Int.negSucc_lt_zero]

/-! ## Numbers -/

namespace Number

theorem row_padded (width n : Nat) : Row (padded width n) := by
  intro c h
  rcases List.mem_append.1 h with h | h
  · rw [List.eq_of_mem_replicate h]; rfl
  · exact row_toDigits n c h

theorem padded_ne_nil (width n : Nat) : padded width n ≠ [] := by simp [padded, Nat.toDigits_ne_nil]

theorem le_length_padded (width n : Nat) : width ≤ (padded width n).length := by
  simp only [padded, List.length_append, List.length_replicate]
  omega

theorem digits_padded (width n : Nat) : Text.digits? (padded width n) = some n := by
  rw [digits_of_row (row_padded width n) (padded_ne_nil width n)]
  simp [padded, Nat.ofDigitChars_append, Nat.ofDigitChars_replicate_zero, Nat.ofDigitChars_ten_toDigits]

/-- Zeros are put in front only of a row that has one digit before the point. -/
theorem take_padded_ne_zero_cons (places n : Nat) (c : Char) (cs : List Char) :
    (padded (places + 1) n).take ((padded (places + 1) n).length - places) ≠ '0' :: c :: cs := by
  intro h
  by_cases hshort : (Nat.toDigits 10 n).length ≤ places + 1
  · have hlen := congrArg List.length h
    simp only [padded, List.length_take, List.length_append, List.length_replicate, List.length_cons] at hlen
    omega
  · have hrow : padded (places + 1) n = Nat.toDigits 10 n := by
      have hzero : places + 1 - (Nat.toDigits 10 n).length = 0 := by omega
      simp [padded, hzero]
    rw [hrow] at h
    have hall := List.take_append_drop ((Nat.toDigits 10 n).length - places) (Nat.toDigits 10 n)
    rw [h] at hall
    exact toDigits_ne_zero_cons n _ _ hall.symm

theorem row_append {row rest : List Char} (hrow : Row row) (hne : row ≠ []) (hrest : NoDigit rest) :
    row? (row ++ rest) = some (row, rest) := by
  obtain ⟨c, cs, rfl⟩ := List.exists_cons_of_ne_nil hne
  simp only [row?, span_row hrow hrest]

theorem whole_append {row rest : List Char} (hrow : Row row) (hne : row ≠ []) (hzero : ∀ c cs, row ≠ '0' :: c :: cs)
    (hrest : NoDigit rest) : whole? (row ++ rest) = some (row, rest) := by
  rw [whole?, row_append hrow hne hrest]
  split
  next _ c cs rest' h =>
    simp only [Option.some.injEq, Prod.mk.injEq] at h
    exact absurd h.1 (hzero _ _)
  next => rfl

theorem exponent_append (e : Option Int) {rest : List Char} (hrest : Ends rest) :
    exponent? (exponentChars e ++ rest) = some (e, rest) := by
  cases e with
  | none =>
    cases rest with
    | nil => rfl
    | cons c cs =>
      obtain ⟨-, -, hc⟩ := hrest
      simp only [exponentChars, List.nil_append]
      unfold exponent?
      split <;> simp_all
  | some e =>
    have hread := row_append (row_toDigits e.natAbs) Nat.toDigits_ne_nil hrest.noDigit
    simp only [exponentChars, toString_int, List.cons_append, List.append_assoc]
    split
    next hneg =>
      simp only [List.cons_append, List.nil_append, exponent?, hread]
      simp only [Option.bind_eq_bind, Option.bind_some, digits_toDigits, Option.pure_def, Option.some.injEq,
        Prod.mk.injEq, and_true]
      omega
    next hpos =>
      -- a digit is no minus sign, so the second rule applies
      obtain ⟨d, ds, hrow⟩ := List.exists_cons_of_ne_nil (Nat.toDigits_ne_nil (n := e.natAbs) (b := 10))
      have hd : d ≠ '-' := by
        rintro rfl
        exact absurd (row_toDigits e.natAbs '-' (by simp [hrow])) (by decide)
      rw [List.nil_append]
      unfold exponent?
      split
      next h => simp_all
      next h =>
        simp only [List.cons.injEq, true_and] at h
        subst h
        rw [hread]
        simp [digits_toDigits]; omega
      next h => simp_all

theorem ends_exponent (e : Option Int) {rest : List Char} (hrest : Ends rest) :
    NoDigit (exponentChars e ++ rest) ∧ ∀ cs, exponentChars e ++ rest ≠ '.' :: cs := by
  cases e with
  | none =>
    refine ⟨hrest.noDigit, ?_⟩
    rintro cs h
    simp only [exponentChars, List.nil_append] at h
    subst h
    exact hrest.2.1 rfl
  | some e => exact ⟨rfl, by simp [exponentChars]⟩

theorem fraction_append {fraction : List Char} (hrow : Row fraction) {rest : List Char} (hrest : NoDigit rest)
    (hpoint : ∀ cs, rest ≠ '.' :: cs) : fraction? (pointChars fraction ++ rest) = some (fraction, rest) := by
  cases fraction with
  | nil =>
    simp only [pointChars, List.isEmpty_nil, if_true, List.nil_append]
    unfold fraction?
    split
    next cs => exact absurd rfl (hpoint cs)
    next => rfl
  | cons c cs => exact row_append hrow (by simp) hrest

theorem noDigit_point (fraction : List Char) {rest : List Char} (hrest : NoDigit rest) :
    NoDigit (pointChars fraction ++ rest) := by
  cases fraction with
  | nil => exact hrest
  | cons c cs => exact (rfl : Char.isDigit '.' = false)

theorem chars_eq (n : Number) :
    ∃ whole fraction, whole ++ fraction = padded (n.places + 1) n.digits ∧ fraction.length = n.places ∧ whole ≠ [] ∧
      (∀ c cs, whole ≠ '0' :: c :: cs) ∧
      n.chars = (if n.negative then ['-'] else []) ++ (whole ++ (pointChars fraction ++ exponentChars n.exponent)) := by
  have hlen := le_length_padded (n.places + 1) n.digits
  refine ⟨_, _, List.take_append_drop ((padded (n.places + 1) n.digits).length - n.places) _, ?_, ?_,
    take_padded_ne_zero_cons n.places n.digits, ?_⟩
  · rw [List.length_drop]; omega
  · rw [← List.length_pos_iff, List.length_take]; omega
  · rfl

/-- Every number is read back as it was written. -/
theorem read_chars (n : Number) {rest : List Char} (hrest : Ends rest) : read? (n.chars ++ rest) = some (n, rest) := by
  obtain ⟨whole, fraction, hrow, hplaces, hne, hzero, hchars⟩ := chars_eq n
  have hdigits : Row (whole ++ fraction) := hrow ▸ row_padded _ _
  obtain ⟨hexp, hdot⟩ := ends_exponent n.exponent hrest
  obtain ⟨d, ds, rfl⟩ := List.exists_cons_of_ne_nil hne
  have hd : d ≠ '-' := by
    rintro rfl
    exact absurd (hdigits '-' (by simp)) (by decide)
  have hwhole := whole_append (fun c h => hdigits c (List.mem_append_left _ h)) hne hzero (noDigit_point fraction hexp)
  have hfraction := fraction_append (fun c h => hdigits c (List.mem_append_right _ h)) hexp hdot
  have hexponent := exponent_append n.exponent hrest
  have hvalue : Text.digits? ((d :: ds) ++ fraction) = some n.digits := by rw [hrow, digits_padded]
  have hsign : sign (n.chars ++ rest) =
      (n.negative, (d :: ds) ++ (pointChars fraction ++ (exponentChars n.exponent ++ rest))) := by
    rw [hchars]
    cases n.negative <;> simp [sign, hd]
  simp only [read?, hsign, hwhole, hfraction, hexponent, hvalue, hplaces, Option.bind_eq_bind, Option.bind_some]
  rfl

end Number

/-! ## Strings -/

theorem hexValue_hexDigit : ∀ n < 16, hexValue? (hexDigit n) = some n := by decide

theorem charOf_toNat (c : Char) : charOf? c.toNat = some c := dif_pos c.valid

/-- A character written by its code is read by its code. -/
theorem escaped_code {c : Char} (hc : c.toNat < 0x20) :
    escaped? '0' '0' (hexDigit (c.toNat / 16)) (hexDigit (c.toNat % 16)) = some c := by
  have hzero : hexValue? '0' = some 0 := rfl
  have hcode : ((0 * 16 + 0) * 16 + c.toNat / 16) * 16 + c.toNat % 16 = c.toNat := by omega
  simp only [escaped?, hzero, hexValue_hexDigit _ (show c.toNat / 16 < 16 by omega),
    hexValue_hexDigit _ (show c.toNat % 16 < 16 by omega), Option.bind_eq_bind, Option.bind_some, hcode, charOf_toNat]

theorem unquoted_plain {c : Char} (hquote : c ≠ '"') (hslash : c ≠ '\\') (hc : ¬ c.toNat < 0x20) (rest : List Char) :
    unquoted? (c :: rest) = (unquoted? rest).map fun p => (c :: p.1, p.2) := by
  have hplain : (c == '\\' || decide (c.toNat < 0x20)) = false := by simp [hslash, hc]
  rw [unquoted?, hplain, Option.map_eq_bind]
  · rfl
  all_goals simp_all

theorem unquoted_short {letter c : Char} (hletter : shortEscape? letter = some c) (rest : List Char) :
    unquoted? ('\\' :: letter :: rest) = (unquoted? rest).map fun p => (c :: p.1, p.2) := by
  rw [unquoted?, hletter, Option.map_eq_bind]
  · rfl
  · rintro _ _ _ _ _ rfl
    cases hletter

theorem unquoted_escape (c : Char) (rest : List Char) :
    unquoted? (escape c ++ rest) = (unquoted? rest).map fun p => (c :: p.1, p.2) := by
  unfold escape
  split
  case h_8 hquote hslash _ _ _ _ _ =>
    split
    next hc =>
      simp only [List.cons_append, List.nil_append, unquoted?, escaped_code hc, Option.bind_eq_bind, Option.bind_some]
      cases unquoted? rest <;> rfl
    next hc => exact unquoted_plain hquote hslash hc rest
  all_goals exact unquoted_short rfl rest

/-- A string is read back up to its closing quote. -/
theorem unquoted_escaped (cs rest : List Char) : unquoted? (cs.flatMap escape ++ '"' :: rest) = some (cs, rest) := by
  induction cs with
  | nil => rfl
  | cons c cs ih => rw [List.flatMap_cons, List.append_assoc, unquoted_escape, ih]; rfl

end ByNeed.Json
