/-
What can be read back from a literal.

1. Where a literal ends. A scanner that skips the character after each backslash (`closing?`) finds the closing quote of a
   literal and no earlier one, whatever text follows (`literals_self_delimiting`).
2. What a literal says. A reader takes one character after another (`Reading.feed`). After a backslash it collects octal
   digits, and a rule decides which of them still belong to the code. Under every rule that lets it read the codes of
   control characters, it reads a literal as `gathered`: the string with digits drawn into the control characters before
   them (`unquote?_quoteWith`).
   - The rule that takes all digits gives the string back if no control character stands before an octal digit.
   - The rule that takes a digit only if the code remains one of a control character gives a normal form, and two strings
     have the same literal exactly if one is turned into the other by drawing digits into control characters, or back
     (`quoting_confuses_merges`).
-/
import ByNeed.Proofs.Text.Quoting
import Mathlib.Data.List.Chain
import Mathlib.Logic.Relation

namespace ByNeed.Text

def isOctal (c : Char) : Bool := '0'.toNat ≤ c.toNat && c.toNat ≤ '7'.toNat

/-- the code of a control character -/
def isControlCode (n : Nat) : Bool := n < 0x20 || n == 0x7f

/-- what may stand around a literal -/
structure Delimiter (quote : Char) : Prop where
  visible : isControl quote = false
  noDigit : quote.isDigit = false
  noBackslash : quote ≠ '\\'

theorem delimiter_double : Delimiter '"' := ⟨rfl, rfl, by decide⟩

theorem delimiter_single : Delimiter '\'' := ⟨rfl, rfl, by decide⟩

theorem isDigit_of_isOctal {c : Char} (hoctal : isOctal c = true) : c.isDigit = true := by
  simp only [isOctal, Bool.and_eq_true, decide_eq_true_eq] at hoctal
  simp only [Char.isDigit, Bool.and_eq_true, decide_eq_true_eq, UInt32.le_iff_toNat_le]
  have hcode : c.val.toNat = c.toNat := rfl
  have hdigits : '0'.toNat = 48 ∧ '7'.toNat = 55 ∧ '0'.val.toNat = 48 ∧ '9'.val.toNat = 57 := ⟨rfl, rfl, rfl, rfl⟩
  omega

theorem Delimiter.noOctal {quote : Char} (hdelimits : Delimiter quote) : isOctal quote = false := by
  refine Bool.eq_false_iff.2 fun hoctal => ?_
  have hdigit := isDigit_of_isOctal hoctal
  rw [hdelimits.noDigit] at hdigit
  cases hdigit

/-! ## The three ways to write a character -/

section

variable {quote c : Char}

theorem escape_control (hcontrol : isControl c = true) : escape quote c = '\\' :: Nat.toDigits 8 c.toNat := by
  simp [escape, hcontrol]

theorem escape_special (hvisible : isControl c = false) (hspecial : c = '\\' ∨ c = quote) :
    escape quote c = ['\\', c] := by
  simp [escape, hvisible, hspecial]

theorem escape_plain (hvisible : isControl c = false) (hbackslash : c ≠ '\\') (hother : c ≠ quote) :
    escape quote c = [c] := by
  simp [escape, hvisible, hbackslash, hother]

/-- every character is written in one of three ways -/
theorem escape_cases (quote c : Char) :
    isControl c = true ∨ isControl c = false ∧ (c = '\\' ∨ c = quote) ∨ isControl c = false ∧ c ≠ '\\' ∧ c ≠ quote := by
  by_cases hcontrol : isControl c = true
  · exact .inl hcontrol
  · have hvisible := Bool.eq_false_iff.2 hcontrol
    by_cases hspecial : c = '\\' ∨ c = quote
    · exact .inr (.inl ⟨hvisible, hspecial⟩)
    · exact .inr (.inr ⟨hvisible, not_or.1 hspecial⟩)

end

/-! ## Where a literal ends -/

/-- The place of the first quote that is not escaped; a backslash escapes the character after it. -/
def closing? (quote : Char) : List Char → Option Nat
  | [] => none
  | c :: rest =>
    if c = '\\' then
      match rest with
      | [] => none
      | _ :: rest => (closing? quote rest).map (· + 2)
    else if c = quote then some 0
    else (closing? quote rest).map (· + 1)

/-- the place of the closing quote of a literal at the start of a text -/
def literalEnd? (quote : Char) : List Char → Option Nat
  | [] => none
  | c :: rest => if c = quote then (closing? quote rest).map (· + 1) else none

section

variable {quote : Char}

theorem closing?_backslash (c : Char) (rest : List Char) :
    closing? quote ('\\' :: c :: rest) = (closing? quote rest).map (· + 2) := by
  simp [closing?]

theorem closing?_other {c : Char} (hbackslash : c ≠ '\\') (hother : c ≠ quote) (rest : List Char) :
    closing? quote (c :: rest) = (closing? quote rest).map (· + 1) := by
  rw [closing?.eq_def]
  simp [hbackslash, hother]

theorem closing?_quote (hdelimits : Delimiter quote) (rest : List Char) : closing? quote (quote :: rest) = some 0 := by
  rw [closing?.eq_def]
  simp [hdelimits.noBackslash]

/-- digits are skipped -/
theorem closing?_digits (hdelimits : Delimiter quote) {row : List Char} (hdigits : ∀ c ∈ row, c.isDigit = true)
    (rest : List Char) : closing? quote (row ++ rest) = (closing? quote rest).map (· + row.length) := by
  induction row with
  | nil => simp
  | cons c row ih =>
    rw [List.forall_mem_cons] at hdigits
    have hbackslash : c ≠ '\\' := by
      rintro rfl
      exact absurd hdigits.1 (by decide)
    have hother : c ≠ quote := by
      rintro rfl
      rw [hdelimits.noDigit] at hdigits
      exact absurd hdigits.1 (by decide)
    rw [List.cons_append, closing?_other hbackslash hother, ih hdigits.2, Option.map_map]
    rfl

/-- so is a written character -/
theorem closing?_escape (hdelimits : Delimiter quote) (c : Char) (rest : List Char) :
    closing? quote (escape quote c ++ rest) = (closing? quote rest).map (· + (escape quote c).length) := by
  rcases escape_cases quote c with hcontrol | ⟨hvisible, hspecial⟩ | ⟨hvisible, hbackslash, hother⟩
  · obtain ⟨digit, digits, hrow⟩ := List.exists_cons_of_ne_nil (Nat.toDigits_ne_nil (n := c.toNat) (b := 8))
    have hofCode : ∀ d ∈ digits, d.isDigit = true := fun d hd =>
      Nat.isDigit_of_mem_toDigits (by decide) (by decide) (hrow ▸ List.mem_cons_of_mem digit hd)
    rw [escape_control hcontrol, hrow, List.cons_append, List.cons_append, closing?_backslash,
      closing?_digits hdelimits hofCode, Option.map_map]
    rfl
  · rw [escape_special hvisible hspecial]
    exact closing?_backslash c rest
  · rw [escape_plain hvisible hbackslash hother]
    exact closing?_other hbackslash hother rest

/-- and so are all characters of a literal, up to the quote that closes it -/
theorem closing?_escaped (hdelimits : Delimiter quote) (cs rest : List Char) :
    closing? quote (cs.flatMap (escape quote) ++ quote :: rest) = some (cs.flatMap (escape quote)).length := by
  induction cs with
  | nil => exact closing?_quote hdelimits rest
  | cons c cs ih =>
    rw [List.flatMap_cons, List.append_assoc, closing?_escape hdelimits, ih, List.length_append, Option.map_some,
      Nat.add_comm]

/-- **A literal ends at its last character,** whatever follows it. -/
theorem literalEnd?_quoteWith (hdelimits : Delimiter quote) (cs rest : List Char) :
    literalEnd? quote (quoteWith quote cs ++ rest) = some ((quoteWith quote cs).length - 1) := by
  have htext : quoteWith quote cs ++ rest = quote :: (cs.flatMap (escape quote) ++ quote :: rest) := by
    simp [quoteWith]
  rw [htext, literalEnd?, if_pos rfl, closing?_escaped hdelimits]
  simp [quoteWith]

/-- so no literal is the beginning of another one -/
theorem quoteWith_append_inj (hdelimits : Delimiter quote) {cs ds rest rest' : List Char}
    (hsame : quoteWith quote cs ++ rest = quoteWith quote ds ++ rest') :
    quoteWith quote cs = quoteWith quote ds ∧ rest = rest' := by
  have hends := congrArg (literalEnd? quote) hsame
  rw [literalEnd?_quoteWith hdelimits, literalEnd?_quoteWith hdelimits] at hends
  have hlength : (quoteWith quote cs).length = (quoteWith quote ds).length := by
    simp only [quoteWith, List.length_cons, Option.some.injEq] at hends ⊢
    omega
  exact List.append_inj hsame hlength

end

/-- **Literals delimit themselves.** Whatever text follows, a scanner that begins after the opening quote and skips the
character after each backslash finds its first quote at the last character of the literal, and the literal shows no
control characters. So a text is cut in one way only into a literal and what follows it. Strings and characters alike. -/
theorem literals_self_delimiting :
    (∀ s r : String, literalEnd? '"' (quoteString s ++ r).toList = some ((quoteString s).length - 1) ∧
      ∀ c ∈ (quoteString s).toList, isControl c = false) ∧
    (∀ (c : Char) (r : String), literalEnd? '\'' (quoteChar c ++ r).toList = some ((quoteChar c).length - 1) ∧
      ∀ d ∈ (quoteChar c).toList, isControl d = false) ∧
    (∀ s t r r' : String, quoteString s ++ r = quoteString t ++ r' → quoteString s = quoteString t ∧ r = r') ∧
    ∀ (c d : Char) (r r' : String), quoteChar c ++ r = quoteChar d ++ r' → quoteChar c = quoteChar d ∧ r = r' := by
  refine ⟨fun s r => ⟨?_, fun c hc => ?_⟩, fun c r => ⟨?_, fun d hd => ?_⟩, fun s t r r' hsame => ?_,
    fun c d r r' hsame => ?_⟩
  · simpa [quoteString] using literalEnd?_quoteWith delimiter_double s.toList r.toList
  · rw [quoteString, String.toList_ofList] at hc
    exact quoteWith_visible rfl hc
  · simpa [quoteChar] using literalEnd?_quoteWith delimiter_single [c] r.toList
  · rw [quoteChar, String.toList_ofList] at hd
    exact quoteWith_visible rfl hd
  · have htexts := congrArg String.toList hsame
    simp only [quoteString, String.toList_append, String.toList_ofList] at htexts
    obtain ⟨hliteral, hrest⟩ := quoteWith_append_inj delimiter_double htexts
    exact ⟨congrArg String.ofList hliteral, String.toList_inj.1 hrest⟩
  · have htexts := congrArg String.toList hsame
    simp only [quoteChar, String.toList_append, String.toList_ofList] at htexts
    obtain ⟨hliteral, hrest⟩ := quoteWith_append_inj delimiter_single htexts
    exact ⟨congrArg String.ofList hliteral, String.toList_inj.1 hrest⟩

/-- A literal of a backslash and a quote, with quotes behind it; the second string has the literal of a tab. -/
theorem literals_self_delimiting_quotes :
    quoteString "\\\"" = "\"\\\\\\\"\"" ∧ literalEnd? '"' (quoteString "\\\"" ++ "\"\"").toList = some 5 ∧
      ('\\' ∈ (quoteString "\\\"").toList ∧ isControl '\\' = false) ∧
      (quoteString "\t" ++ "7\"" = quoteString "\x011" ++ "7\"" ∧ quoteString "\t" = quoteString "\x011") ∧
      literalEnd? '\'' (quoteChar '\'' ++ "'").toList = some 3 ∧
      quoteChar '\'' = "'\\''" := by
  obtain ⟨hstrings, hchars, hcut, -⟩ := literals_self_delimiting
  have hmember : '\\' ∈ (quoteString "\\\"").toList := by decide +kernel
  have hsame : quoteString "\t" ++ "7\"" = quoteString "\x011" ++ "7\"" := by decide +kernel
  obtain ⟨hends, hvisible⟩ := hstrings "\\\"" "\"\""
  exact ⟨by decide +kernel, hends, ⟨hmember, hvisible _ hmember⟩, ⟨hsame, (hcut _ _ _ _ hsame).1⟩, (hchars '\'' "'").1,
    by decide +kernel⟩

/-! ## Reading a literal -/

/-- where the reader of a literal stands -/
inductive Reading where
  | plain
  /-- behind a backslash -/
  | escape
  /-- behind a backslash and digits of a code, which come to `n` so far -/
  | code (n : Nat)
  /-- behind the closing quote -/
  | closed

/-- the code that a further octal digit makes of `n` -/
def extended (n : Nat) (c : Char) : Nat := 8 * n + (c.toNat - '0'.toNat)

namespace Reading

/-- a character that belongs to no escape: what is read then, and where the reader stands -/
def outside (quote c : Char) : List Char × Reading :=
  if c = quote then ([], closed) else if c = '\\' then ([], escape) else ([c], plain)

/-- one character; `joins n m` says whether a digit that makes `m` of the code `n` belongs to the code -/
def feed (joins : Nat → Nat → Bool) (quote : Char) : Reading → Char → List Char × Reading
  | plain, c => outside quote c
  | escape, c => if isOctal c then ([], code (extended 0 c)) else ([c], plain)
  | code n, c =>
    if isOctal c && joins n (extended n c) then ([], code (extended n c))
    else (Char.ofNat n :: (outside quote c).1, (outside quote c).2)
  | closed, _ => ([], closed)

end Reading

/-- the characters that a literal stands for, read from where the reader stands; nothing may follow the closing quote -/
def unquoted (joins : Nat → Nat → Bool) (quote : Char) : Reading → List Char → Option (List Char)
  | .closed, rest => if rest.isEmpty then some [] else none
  | _, [] => none
  | state, c :: rest =>
    let (read, next) := state.feed joins quote c
    (unquoted joins quote next rest).map (read ++ ·)

def unquote? (joins : Nat → Nat → Bool) (quote : Char) : List Char → Option (List Char)
  | [] => none
  | c :: rest => if c = quote then unquoted joins quote .plain rest else none

/-- the rule that takes all digits into the code -/
def allDigits (_ _ : Nat) : Bool := true

/-- the rule that takes a digit only if the code remains one of a control character; there is none to go on after zero -/
def controlDigits (n m : Nat) : Bool := 0 < n && isControlCode m

/-- the string that a literal in double quotes stands for, all octal digits after a backslash being one code -/
def unquoteString? (s : String) : Option String := (unquote? allDigits '"' s.toList).map String.ofList

/-- Digits are drawn into the control character before them as far as the rule takes them; `n` is the code that is open. -/
def gathered (joins : Nat → Nat → Bool) : Option Nat → List Char → List Char
  | none, [] => []
  | some n, [] => [Char.ofNat n]
  | none, c :: rest => if isControl c then gathered joins (some c.toNat) rest else c :: gathered joins none rest
  | some n, c :: rest =>
    if isOctal c && joins n (extended n c) then gathered joins (some (extended n c)) rest
    else Char.ofNat n :: if isControl c then gathered joins (some c.toNat) rest else c :: gathered joins none rest

/-- the rule lets the reader take the codes of control characters, digit by digit -/
def Takes (joins : Nat → Nat → Bool) : Prop := ∀ n m, 0 < n → isControlCode m = true → joins n m = true

theorem takes_allDigits : Takes allDigits := fun _ _ _ _ => rfl

theorem takes_controlDigits : Takes controlDigits := by
  intro n m hpositive hcontrol
  simp [controlDigits, hpositive, hcontrol]

theorem isControlCode_toNat (c : Char) : isControlCode c.toNat = isControl c := rfl

theorem isOctal_digitChar {d : Nat} (hsmall : d < 8) :
    isOctal d.digitChar = true ∧ ∀ n, extended n d.digitChar = 8 * n + d := by
  have hcode := Nat.toNat_digitChar_of_lt_ten (show d < 10 by omega)
  have hdigits : '0'.toNat = 48 ∧ '7'.toNat = 55 := ⟨rfl, rfl⟩
  constructor
  · simp only [isOctal, Bool.and_eq_true, decide_eq_true_eq]
    omega
  · intro n
    rw [extended]
    omega

section

variable {joins : Nat → Nat → Bool} {quote : Char}

theorem unquoted_join {n : Nat} {c : Char} (hoctal : isOctal c = true) (hjoin : joins n (extended n c) = true)
    (rest : List Char) :
    unquoted joins quote (.code n) (c :: rest) = unquoted joins quote (.code (extended n c)) rest := by
  simp [unquoted, Reading.feed, hoctal, hjoin]

/-- where the rule takes no further digit, the code is complete -/
theorem unquoted_stop {n : Nat} {c : Char} (hstop : (isOctal c && joins n (extended n c)) = false) (rest : List Char) :
    unquoted joins quote (.code n) (c :: rest) =
      (unquoted joins quote .plain (c :: rest)).map (Char.ofNat n :: ·) := by
  simp [unquoted, Reading.feed, hstop, Function.comp_def]

/-- The digits of a code are read one after the other. All beginnings of the code are codes of control characters, and none
of them is zero, so that the rule takes the next digit. -/
theorem unquoted_digits (htakes : Takes joins) {n : Nat} (hcontrol : isControlCode n = true) (rest : List Char) :
    unquoted joins quote .escape (Nat.toDigits 8 n ++ rest) = unquoted joins quote (.code n) rest := by
  induction n using Nat.strongRecOn generalizing rest with
  | ind n ih =>
    by_cases hsingle : n < 8
    · obtain ⟨hoctal, hvalue⟩ := isOctal_digitChar hsingle
      simp [Nat.toDigits_of_lt_base hsingle, unquoted, Reading.feed, hoctal, hvalue]
    · obtain ⟨hoctal, hvalue⟩ := isOctal_digitChar (show n % 8 < 8 by omega)
      have hwhole : extended (n / 8) (n % 8).digitChar = n := by
        rw [hvalue]
        omega
      have hbeginning : isControlCode (n / 8) = true := by
        simp only [isControlCode, Bool.or_eq_true, decide_eq_true_eq, beq_iff_eq] at hcontrol ⊢
        omega
      have hjoin : joins (n / 8) (extended (n / 8) (n % 8).digitChar) = true :=
        htakes _ _ (by omega) (by rw [hwhole]; exact hcontrol)
      calc unquoted joins quote .escape (Nat.toDigits 8 n ++ rest)
        _ = unquoted joins quote .escape (Nat.toDigits 8 (n / 8) ++ ((n % 8).digitChar :: rest)) := by
          rw [Nat.toDigits_of_base_le (by decide) (by omega), List.append_assoc, List.singleton_append]
        _ = unquoted joins quote (.code (n / 8)) ((n % 8).digitChar :: rest) := ih _ (by omega) hbeginning _
        _ = unquoted joins quote (.code n) rest := by rw [unquoted_join hoctal hjoin, hwhole]

/-- A control character is read as an open code, any other character as itself. -/
theorem unquoted_escape (hdelimits : Delimiter quote) (htakes : Takes joins) (c : Char) (rest : List Char) :
    unquoted joins quote .plain (escape quote c ++ rest) =
      if isControl c then unquoted joins quote (.code c.toNat) rest
      else (unquoted joins quote .plain rest).map (c :: ·) := by
  have hbackslash : Reading.outside quote '\\' = ([], .escape) := by
    simp [Reading.outside, Ne.symm hdelimits.noBackslash]
  rcases escape_cases quote c with hcontrol | ⟨hvisible, hspecial⟩ | ⟨hvisible, hnoBackslash, hother⟩
  · rw [escape_control hcontrol, if_pos hcontrol, ← unquoted_digits htakes hcontrol]
    simp [unquoted, Reading.feed, hbackslash]
  · have hnoOctal : isOctal c = false := by
      rcases hspecial with rfl | rfl
      · rfl
      · exact hdelimits.noOctal
    simp [escape_special hvisible hspecial, hvisible, unquoted, Reading.feed, hbackslash, hnoOctal, Function.comp_def]
  · simp [escape_plain hvisible hnoBackslash hother, hvisible, unquoted, Reading.feed, Reading.outside, hnoBackslash,
      hother]

/-- a digit that the rule does not take, and any other character, completes the code before it -/
theorem unquoted_stop_escape {n : Nat} {c : Char}
    (hstop : (isOctal c && joins n (extended n c)) = false) (rest : List Char) :
    unquoted joins quote (.code n) (escape quote c ++ rest) =
      (unquoted joins quote .plain (escape quote c ++ rest)).map (Char.ofNat n :: ·) := by
  rcases escape_cases quote c with hcontrol | ⟨hvisible, hspecial⟩ | ⟨hvisible, hnoBackslash, hother⟩
  · rw [escape_control hcontrol]
    exact unquoted_stop rfl _
  · rw [escape_special hvisible hspecial]
    exact unquoted_stop rfl _
  · rw [escape_plain hvisible hnoBackslash hother]
    exact unquoted_stop hstop _

/-- an octal digit stands for itself -/
theorem escape_octal (hdelimits : Delimiter quote) {c : Char} (hoctal : isOctal c = true) : escape quote c = [c] := by
  refine escape_plain (digit_visible (isDigit_of_isOctal hoctal)) ?_ ?_
  · rintro rfl
    cases hoctal
  · rintro rfl
    rw [hdelimits.noOctal] at hoctal
    cases hoctal

/-- where the reader stands if this code is open -/
def Reading.ofCode : Option Nat → Reading
  | none => .plain
  | some n => .code n

/-- The reader gathers digits from the literal as `gathered` does from the characters themselves. -/
theorem unquoted_escaped (hdelimits : Delimiter quote) (htakes : Takes joins) (cs : List Char) (pending : Option Nat) :
    unquoted joins quote (.ofCode pending) (cs.flatMap (escape quote) ++ [quote]) =
      some (gathered joins pending cs) := by
  induction cs generalizing pending with
  | nil =>
    have hcloses : unquoted joins quote .plain [quote] = some [] := by
      simp [unquoted, Reading.feed, Reading.outside]
    cases pending with
    | none => exact hcloses
    | some n =>
      have hstop : (isOctal quote && joins n (extended n quote)) = false := by simp [hdelimits.noOctal]
      simp [Reading.ofCode, unquoted_stop hstop, hcloses, gathered]
  | cons c cs ih =>
    -- what follows if no digits are being gathered; pending digits end here or join `c`
    have honward : unquoted joins quote .plain ((c :: cs).flatMap (escape quote) ++ [quote]) =
        some (gathered joins none (c :: cs)) := by
      rw [List.flatMap_cons, List.append_assoc, unquoted_escape hdelimits htakes, gathered]
      split
      · exact ih (some c.toNat)
      · rw [show Reading.plain = .ofCode none from rfl, ih none, Option.map_some]
    cases pending with
    | none => exact honward
    | some n =>
      cases hjoin : isOctal c && joins n (extended n c) with
      | true =>
        obtain ⟨hoctal, hmore⟩ := Bool.and_eq_true_iff.1 hjoin
        have hdigit := escape_octal hdelimits hoctal
        rw [List.flatMap_cons, hdigit, Reading.ofCode, List.append_assoc, List.singleton_append,
          unquoted_join hoctal hmore, gathered, if_pos hjoin]
        exact ih (some (extended n c))
      | false =>
        rw [List.flatMap_cons, List.append_assoc] at honward ⊢
        rw [Reading.ofCode, unquoted_stop_escape hjoin, honward, Option.map_some, gathered, gathered,
          if_neg (Bool.eq_false_iff.1 hjoin)]

/-- **What a literal says** to a reader of either rule. -/
theorem unquote?_quoteWith (hdelimits : Delimiter quote) (htakes : Takes joins) (cs : List Char) :
    unquote? joins quote (quoteWith quote cs) = some (gathered joins none cs) := by
  rw [quoteWith, unquote?, if_pos rfl]
  exact unquoted_escaped hdelimits htakes cs none

end

/-! ## Strings that are read back -/

/-- no control character stands directly before an octal digit -/
def Separated (s : String) : Prop := s.toList.IsChain fun c d => isControl c = true → isOctal d = false

instance : DecidablePred Separated := fun s =>
  inferInstanceAs (Decidable (s.toList.IsChain fun c d => isControl c = true → isOctal d = false))

/-- Where nothing can be drawn into a control character, nothing is. -/
theorem gathered_separated {joins : Nat → Nat → Bool} {cs : List Char}
    (hseparated : cs.IsChain fun c d => isControl c = true → isOctal d = false) : gathered joins none cs = cs := by
  induction hseparated with
  | nil => rfl
  | singleton c =>
    simp only [gathered, Char.ofNat_toNat]
    split <;> rfl
  | @cons_cons c d cs hapart hrest ih =>
    rw [gathered]
    split
    next hcontrol =>
      have hstop : (isOctal d && joins c.toNat (extended c.toNat d)) = false := by simp [hapart hcontrol]
      rw [gathered, hstop, Char.ofNat_toNat]
      rw [gathered] at ih
      simpa using ih
    next => rw [ih]

theorem unquoteString?_quoteString {s : String} (hseparated : Separated s) :
    unquoteString? (quoteString s) = some s := by
  rw [unquoteString?, quoteString, String.toList_ofList, unquote?_quoteWith delimiter_double takes_allDigits,
    gathered_separated hseparated, Option.map_some, String.ofList_toList]

/-! ## Strings that are confused -/

/-- `t` is `s` with an octal digit drawn into the control character before it, whose code is not zero -/
inductive Merges : List Char → List Char → Prop
  | intro (u v : List Char) {c d x : Char} (hcontrol : isControl c = true) (hpositive : 1 ≤ c.toNat)
      (hoctal : isOctal d = true) (hresult : isControl x = true)
      (hcode : x.toNat = 8 * c.toNat + (d.toNat - '0'.toNat)) :
      Merges (u ++ c :: d :: v) (u ++ x :: v)

theorem Merges.cons {s t : List Char} (hmerges : Merges s t) (c : Char) : Merges (c :: s) (c :: t) := by
  obtain ⟨u, v, hcontrol, hpositive, hoctal, hresult, hcode⟩ := hmerges
  exact .intro (c :: u) v hcontrol hpositive hoctal hresult hcode

/-- the digit is the last one of the code that the control character and the digit make -/
theorem escape_merge {quote c d x : Char} (hdelimits : Delimiter quote) (hcontrol : isControl c = true)
    (hpositive : 1 ≤ c.toNat) (hoctal : isOctal d = true) (hresult : isControl x = true)
    (hcode : x.toNat = 8 * c.toNat + (d.toNat - '0'.toNat)) : escape quote c ++ escape quote d = escape quote x := by
  have hdigits : '0'.toNat = 48 ∧ '7'.toNat = 55 := ⟨rfl, rfl⟩
  have hrange := hoctal
  simp only [isOctal, Bool.and_eq_true, decide_eq_true_eq] at hrange
  have hsmall : d.toNat - '0'.toNat < 8 := by omega
  have hchar : (d.toNat - '0'.toNat).digitChar = d := by
    apply Char.toNat_inj.1
    rw [Nat.toNat_digitChar_of_lt_ten (by omega)]
    omega
  rw [escape_control hcontrol, escape_control hresult, escape_octal hdelimits hoctal, hcode, List.cons_append,
    ← Nat.toDigits_append_toDigits (by decide) hpositive hsmall, Nat.toDigits_of_lt_base hsmall, hchar]

theorem quoteWith_merges {quote : Char} (hdelimits : Delimiter quote) {s t : List Char} (hmerges : Merges s t) :
    quoteWith quote s = quoteWith quote t := by
  obtain ⟨u, v, hcontrol, hpositive, hoctal, hresult, hcode⟩ := hmerges
  have hsame := escape_merge hdelimits hcontrol hpositive hoctal hresult hcode
  simp only [quoteWith, List.flatMap_append, List.flatMap_cons, ← hsame, List.append_assoc]

/-- The normal form of a string is reached by drawing digits into control characters one at a time. -/
theorem gathered_reached (cs : List Char) :
    Relation.EqvGen Merges cs (gathered controlDigits none cs) ∧
      ∀ x, isControl x = true → Relation.EqvGen Merges (x :: cs) (gathered controlDigits (some x.toNat) cs) := by
  induction cs with
  | nil =>
    refine ⟨.refl _, fun x _ => ?_⟩
    rw [gathered, Char.ofNat_toNat]
    exact .refl _
  | cons c cs ih =>
    have hcons : ∀ (y : Char) {s t : List Char},
        Relation.EqvGen Merges s t → Relation.EqvGen Merges (y :: s) (y :: t) := by
      intro y s t hrelated
      induction hrelated with
      | rel s t hmerges => exact .rel _ _ (hmerges.cons y)
      | refl s => exact .refl _
      | symm s t _ ih => exact .symm _ _ ih
      | trans s t u _ _ ih ih' => exact .trans _ _ _ ih ih'
    have hhere : Relation.EqvGen Merges (c :: cs) (gathered controlDigits none (c :: cs)) := by
      rw [gathered]
      split
      next hcontrol => exact ih.2 c hcontrol
      next => exact hcons c ih.1
    refine ⟨hhere, fun x hcontrol => ?_⟩
    rw [gathered]
    split
    next hjoin =>
      simp only [Bool.and_eq_true, controlDigits, decide_eq_true_eq] at hjoin
      obtain ⟨hoctal, hpositive, hresult⟩ := hjoin
      -- the new code is that of a character
      have hcode : (Char.ofNat (extended x.toNat c)).toNat = extended x.toNat c := by
        have hvalid : (extended x.toNat c).isValidChar := by
          simp only [isControlCode, Bool.or_eq_true, decide_eq_true_eq, beq_iff_eq] at hresult
          exact .inl (by omega)
        rw [Char.ofNat, dif_pos hvalid]
        rfl
      have hmerges : Merges (x :: c :: cs) (Char.ofNat (extended x.toNat c) :: cs) :=
        .intro [] cs hcontrol hpositive hoctal (by rw [← isControlCode_toNat, hcode]; exact hresult) hcode
      rw [← hcode]
      exact .trans _ _ _ (.rel _ _ hmerges) (ih.2 _ (by rw [← isControlCode_toNat, hcode]; exact hresult))
    next =>
      rw [gathered] at hhere
      rw [Char.ofNat_toNat]
      exact hcons x hhere

/-- two strings with the same literal have the same normal form -/
theorem quoteWith_eq_iff {quote : Char} (hdelimits : Delimiter quote) (s t : List Char) :
    quoteWith quote s = quoteWith quote t ↔ Relation.EqvGen Merges s t := by
  constructor
  · intro hsame
    have hforms : gathered controlDigits none s = gathered controlDigits none t := by
      have hread := congrArg (unquote? controlDigits quote) hsame
      rwa [unquote?_quoteWith hdelimits takes_controlDigits, unquote?_quoteWith hdelimits takes_controlDigits,
        Option.some.injEq] at hread
    have hfromT := (gathered_reached t).1
    rw [← hforms] at hfromT
    exact .trans _ _ _ (gathered_reached s).1 (.symm _ _ hfromT)
  · intro hrelated
    induction hrelated with
    | rel s t hmerges => exact quoteWith_merges hdelimits hmerges
    | refl s => rfl
    | symm s t _ ih => exact ih.symm
    | trans s t u _ _ ih ih' => exact ih.trans ih'

/-- **Exactly which strings are confused.** A string in which no control character stands before an octal digit is read
back from its literal by taking all octal digits after a backslash for one code, so two such strings with the same
literal are equal. Beyond that, information is lost: a control character with a code of at least 1 and an octal digit
after it are written like the control character whose code they make together, if there is one. Nothing else is lost:
strings with the same literal are turned into each other by such exchanges. -/
theorem quoting_confuses_merges :
    (∀ s, Separated s → unquoteString? (quoteString s) = some s) ∧
    (∀ s t, Separated s → Separated t → quoteString s = quoteString t → s = t) ∧
    (∀ (u v : String) (c d x : Char), isControl c = true → 1 ≤ c.toNat → isOctal d = true → isControl x = true →
      x.toNat = 8 * c.toNat + (d.toNat - '0'.toNat) →
      quoteString (u ++ String.ofList [c, d] ++ v) = quoteString (u ++ String.ofList [x] ++ v)) ∧
    ∀ s t, quoteString s = quoteString t ↔ Relation.EqvGen Merges s.toList t.toList := by
  refine ⟨fun s hseparated => unquoteString?_quoteString hseparated, fun s t hs ht hsame => ?_,
    fun u v c d x hcontrol hpositive hoctal hresult hcode => ?_, fun s t => ?_⟩
  · have hread := unquoteString?_quoteString hs
    rw [hsame, unquoteString?_quoteString ht, Option.some.injEq] at hread
    exact hread.symm
  · have hsame := quoteWith_merges delimiter_double (.intro u.toList v.toList hcontrol hpositive hoctal hresult hcode)
    simp [quoteString, hsame]
  · rw [← quoteWith_eq_iff delimiter_double]
    exact String.ofList_inj

/-- A string with controls, quotes and digits is read back; a tab is confused with two characters, and digits that are drawn
into a control character one after the other are found from either side. -/
theorem quoting_confuses_merges_tab :
    (Separated "\x1b[0m\n\x7f\"9\\7\x00" ∧
      unquoteString? (quoteString "\x1b[0m\n\x7f\"9\\7\x00") = some "\x1b[0m\n\x7f\"9\\7\x00") ∧
    (isControl '\x01' = true ∧ isOctal '1' = true ∧ isControl '\t' = true ∧
      quoteString "a\x0117" = quoteString "a\t7") ∧
    (quoteString "\x0177" = quoteString "\x7f" ∧ Relation.EqvGen Merges "\x0177".toList "\x7f".toList) := by
  obtain ⟨hreadBack, -, hconfused, hexactly⟩ := quoting_confuses_merges
  have hseparated : Separated "\x1b[0m\n\x7f\"9\\7\x00" := by decide +kernel
  have hmerged := hconfused "a" "7" '\x01' '1' '\t' rfl (by decide) rfl rfl rfl
  have hsame : quoteString "\x0177" = quoteString "\x7f" := by decide +kernel
  exact ⟨⟨hseparated, hreadBack _ hseparated⟩, ⟨rfl, rfl, rfl, by simpa using hmerged⟩, hsame, (hexactly _ _).1 hsame⟩

end ByNeed.Text
