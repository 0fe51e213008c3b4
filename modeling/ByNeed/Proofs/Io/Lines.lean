/-
Reading lines does not depend on the chunks in which the input arrives.

What a source delivers is a row of bytes and failures; where one chunk ends and the next begins is forgotten, and so are
interruptions. Reading a line takes this row apart from the front.
- `readFrom_arrivals`: reading chunks is reading the row, byte by byte.
- `lines_line`, `lines_last`: what the lines of a text are.
- `readLine_lines`: reading the lines of a text, one after another.
-/
import ByNeed.Io.Source
import Mathlib.Data.List.Basic
import Mathlib.Data.List.TakeDrop
import Mathlib.Data.List.TakeWhile
import Mathlib.Tactic.SplitIfs

namespace ByNeed

/-- what arrives from a source, one byte at a time -/
inductive Arrival where
  | byte (b : UInt8)
  | failure (e : IoError)

namespace Source

/-! ## Chunks -/

/-- what a source delivers; interruptions are not seen -/
def arrivals : Source → List Arrival
  | [] => []
  | .data bytes :: source => bytes.map .byte ++ arrivals source
  | .failure e :: source => if e.kind = .interrupted then arrivals source else .failure e :: arrivals source

theorem arrivals_data (chunks : List Bytes) : arrivals (chunks.map .data) = chunks.flatten.map .byte := by
  induction chunks with
  | nil => rfl
  | cons bytes chunks ih => rw [List.map_cons, arrivals, ih, List.flatten_cons, List.map_append]

/-- reads the rest of a line of which `line` is read already, byte by byte -/
def readArrivals (line : Bytes) : List Arrival → Except IoError (Option String) × List Arrival
  | [] => (if line.isEmpty then .ok none else some <$> finish line, [])
  | .byte b :: rest =>
    if b = newline then (some <$> finish (line ++ [b]), rest) else readArrivals (line ++ [b]) rest
  | .failure e :: rest => (.error e, rest)

/-- bytes that are no newlines are read into the line -/
theorem readArrivals_bytes {bytes : Bytes} (hinner : newline ∉ bytes) (line : Bytes) (rest : List Arrival) :
    readArrivals line (bytes.map .byte ++ rest) = readArrivals (line ++ bytes) rest := by
  induction bytes generalizing line with
  | nil => rw [List.map_nil, List.nil_append, List.append_nil]
  | cons b bytes ih =>
    obtain ⟨hb, hinner⟩ := not_or.1 (List.mem_cons.not.1 hinner)
    rw [List.map_cons, List.cons_append, readArrivals, if_neg (Ne.symm hb), ih hinner, List.append_assoc,
      List.singleton_append]

theorem bne_of_inner {bytes : Bytes} (hinner : newline ∉ bytes) : ∀ b ∈ bytes, (b != newline) = true := by
  intro b hb
  exact bne_iff_ne.2 fun h => hinner (h ▸ hb)

theorem splitLine_line {line : Bytes} (hinner : newline ∉ line) (rest : Bytes) :
    splitLine (line ++ newline :: rest) = some (line ++ [newline], rest) := by
  have hall := bne_of_inner hinner
  unfold splitLine
  rw [List.span_eq_takeWhile_dropWhile, List.takeWhile_append_of_pos hall, List.dropWhile_append_of_pos hall]
  simp

theorem splitLine_inner {bytes : Bytes} (hinner : newline ∉ bytes) : splitLine bytes = none := by
  unfold splitLine
  rw [List.span_eq_takeWhile_dropWhile, List.dropWhile_eq_nil_iff.2 (bne_of_inner hinner)]

/-- **Chunks do not matter.** Reading a line from a source is reading it from what the source delivers, and leaves what
is still to be delivered. -/
theorem readFrom_arrivals (line : Bytes) (source : Source) :
    (readFrom line source).1 = (readArrivals line source.arrivals).1 ∧
      (readFrom line source).2.arrivals = (readArrivals line source.arrivals).2 := by
  induction source generalizing line with
  | nil => exact ⟨rfl, rfl⟩
  | cons chunk source ih =>
    cases chunk with
    | failure e =>
      rw [readFrom, arrivals]
      split_ifs
      · exact ih line
      · exact ⟨rfl, rfl⟩
    | data bytes =>
      rw [readFrom, arrivals]
      by_cases hhere : newline ∈ bytes
      · obtain ⟨first, rest, rfl, hinner⟩ := List.eq_append_cons_of_mem hhere
        rw [splitLine_line hinner, List.map_append, List.append_assoc, readArrivals_bytes hinner, List.map_cons,
          List.cons_append, readArrivals, if_pos rfl, List.append_assoc]
        exact ⟨rfl, rfl⟩
      · rw [splitLine_inner hhere, readArrivals_bytes hhere]
        exact ih (line ++ bytes)

end Source

/-! ## Lines -/

/-- the lines of a text, without their ends, which are a newline or a carriage return and a newline; bytes after the last
newline are a line too -/
def Text.lines : Bytes → List Bytes
  | [] => []
  | 10 :: rest => [] :: lines rest
  | 13 :: 10 :: rest => [] :: lines rest
  | b :: rest =>
    match lines rest with
    | [] => [[b]]
    | line :: more => (b :: line) :: more

namespace Source

open Text

theorem stripEnd_line (line : Bytes) :
    stripEnd (line ++ [newline]) = if line.getLast? = some carriageReturn then line.dropLast else line := by
  rcases List.eq_nil_or_concat' line with rfl | ⟨line, b, rfl⟩
  · rfl
  · have hends : (line ++ [b] ++ [newline]).reverse = 10 :: b :: line.reverse := by simp [newline]
    rw [stripEnd, hends, List.getLast?_concat, List.dropLast_concat]
    by_cases hb : b = carriageReturn
    · rw [hb, if_pos rfl]
      exact List.reverse_reverse line
    · rw [if_neg fun h => hb (Option.some.inj h)]
      split
      · rename_i h
        exact absurd (List.cons.inj (List.cons.inj h).2).1 hb
      · rename_i h
        rw [← (List.cons.inj h).2, List.reverse_cons, List.reverse_reverse]
      · rename_i h
        exact absurd rfl (h _)

theorem stripEnd_inner {line : Bytes} (hinner : newline ∉ line) : stripEnd line = line := by
  rcases List.eq_nil_or_concat' line with rfl | ⟨line, b, rfl⟩
  · rfl
  · have hb : b ≠ 10 := by
      rintro rfl
      exact hinner (List.mem_append_right line (List.mem_singleton_self _))
    rw [stripEnd, List.reverse_append, List.reverse_singleton, List.singleton_append]
    split
    · rename_i h
      exact absurd (List.cons.inj h).1 hb
    · rename_i h
      exact absurd (List.cons.inj h).1 hb
    · rfl

end Source

namespace Text

open Source

theorem lines_cons {b : UInt8} {rest : Bytes} (hb : b ≠ newline)
    (hreturn : ¬ (b = carriageReturn ∧ rest.head? = some newline)) :
    lines (b :: rest) = match lines rest with
      | [] => [[b]]
      | line :: more => (b :: line) :: more := by
  rw [lines]
  · exact hb
  · rintro rest' rfl rfl
    exact hreturn ⟨rfl, rfl⟩

/-- a newline ends a line -/
theorem lines_line {line : Bytes} (hinner : newline ∉ line) (rest : Bytes) :
    lines (line ++ newline :: rest) = stripEnd (line ++ [newline]) :: lines rest := by
  rw [stripEnd_line]
  induction line with
  | nil => rfl
  | cons b line ih =>
    obtain ⟨hb, hinner⟩ := not_or.1 (List.mem_cons.not.1 hinner)
    by_cases hreturn : b = carriageReturn ∧ line = []
    · obtain ⟨rfl, rfl⟩ := hreturn
      rfl
    rw [List.cons_append, lines_cons (Ne.symm hb), ih hinner]
    · cases line with
      | nil =>
        have halone : b ≠ carriageReturn := fun h => hreturn ⟨h, rfl⟩
        simp [halone]
      | cons c line =>
        rw [List.getLast?_cons_cons, List.dropLast_cons_cons]
        split_ifs <;> rfl
    · rintro ⟨hb', hhead⟩
      cases line with
      | nil => exact hreturn ⟨hb', rfl⟩
      | cons c line => exact hinner (List.mem_of_head? hhead)

/-- what follows the last newline is a line -/
theorem lines_last {line : Bytes} (hinner : newline ∉ line) (hnonempty : line ≠ []) : lines line = [line] := by
  induction line with
  | nil => exact absurd rfl hnonempty
  | cons b line ih =>
    obtain ⟨hb, hinner⟩ := not_or.1 (List.mem_cons.not.1 hinner)
    rw [lines_cons (Ne.symm hb)]
    · cases line with
      | nil => rfl
      | cons c line => rw [ih hinner (List.cons_ne_nil c line)]
    · rintro ⟨-, hhead⟩
      exact hinner (List.mem_of_head? hhead)

theorem eq_nil_of_lines {bytes : Bytes} (hnone : lines bytes = []) : bytes = [] := by
  by_cases hhere : newline ∈ bytes
  · obtain ⟨line, rest, rfl, hinner⟩ := List.eq_append_cons_of_mem hhere
    rw [lines_line hinner] at hnone
    cases hnone
  · by_cases hnonempty : bytes = []
    · exact hnonempty
    · rw [lines_last hhere hnonempty] at hnone
      cases hnone

theorem length_lines_le (bytes : Bytes) : (lines bytes).length ≤ bytes.length := by
  fun_induction lines bytes with
  | case1 => exact Nat.le_refl 0
  | case2 rest ih => exact Nat.succ_le_succ ih
  | case3 rest ih => exact Nat.succ_le_succ (Nat.le_succ_of_le ih)
  | case4 b rest _ _ hnone ih => exact Nat.succ_le_succ (Nat.zero_le _)
  | case5 b rest _ _ line more hsome ih =>
    rw [hsome] at ih
    exact Nat.le_succ_of_le ih

/-- texts that are written one a line are the lines of what is written -/
theorem lines_written {texts : List Bytes} (hplain : ∀ text ∈ texts, ∀ b ∈ text, b ≠ newline ∧ b ≠ carriageReturn) :
    lines (texts.flatMap fun text => text ++ [newline]) = texts := by
  induction texts with
  | nil => rfl
  | cons text texts ih =>
    have hown := hplain text List.mem_cons_self
    have hinner : newline ∉ text := fun h => (hown newline h).1 rfl
    have hlast : text.getLast? ≠ some carriageReturn := fun h => (hown carriageReturn (List.mem_of_getLast? h)).2 rfl
    rw [List.flatMap_cons, List.append_assoc, List.singleton_append, lines_line hinner, stripEnd_line, if_neg hlast,
      ih fun t ht => hplain t (List.mem_cons_of_mem text ht)]

end Text

namespace Source

open Text

variable {source : Source} {input : Bytes}

/-- at the end of a text there is no line -/
theorem readLine_end (hdelivers : source.arrivals = []) : source.readLine.1 = .ok none := by
  obtain ⟨hread, -⟩ := readFrom_arrivals [] source
  rw [hdelivers] at hread
  exact hread

/-- **Lines are read one after another**, however they arrive. -/
theorem readLine_lines (hdelivers : source.arrivals = input.map .byte) {l : Bytes} {more : List Bytes}
    (hfirst : lines input = l :: more) :
    ∃ line rest, stripEnd line = l ∧ source.readLine.1 = some <$> finish line ∧
      source.readLine.2.arrivals = rest.map .byte ∧ lines rest = more := by
  obtain ⟨hread, hleft⟩ := readFrom_arrivals [] source
  rw [hdelivers] at hread hleft
  by_cases hhere : newline ∈ input
  · obtain ⟨line, rest, rfl, hinner⟩ := List.eq_append_cons_of_mem hhere
    rw [List.map_append, List.map_cons, readArrivals_bytes hinner, readArrivals, if_pos rfl] at hread hleft
    rw [lines_line hinner] at hfirst
    obtain ⟨rfl, rfl⟩ := List.cons.inj hfirst
    exact ⟨line ++ [newline], rest, rfl, hread, hleft, rfl⟩
  · have hnonempty : input ≠ [] := by
      rintro rfl
      cases hfirst
    rw [← List.append_nil (input.map Arrival.byte), readArrivals_bytes hhere, List.nil_append,
      readArrivals] at hread hleft
    rw [lines_last hhere hnonempty] at hfirst
    obtain ⟨rfl, rfl⟩ := List.cons.inj hfirst
    have hwhole : input.isEmpty = false := by rwa [List.isEmpty_eq_false_iff]
    rw [hwhole] at hread
    exact ⟨input, [], stripEnd_inner hhere, hread, hleft, rfl⟩

end Source

end ByNeed
