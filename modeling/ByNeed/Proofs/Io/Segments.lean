/-
What reading line by line gives, over a whole input.

What a source delivers is cut into segments: each ends just after a newline, at a failure, or at the end of input. Every
row of bytes and failures can be cut so (`Cut.exists_of`), in whatever chunks it arrives.
- `readLine_segment`, `readLine_rest`: one read takes one segment, and leaves what follows.
- `readLine_follows_segments`: reads one after another answer segment by segment, and then tell the end of input for ever.
-/
import ByNeed.Proofs.Io.Lines
import ByNeed.Proofs.Text.Quoting

namespace ByNeed

/-- a text without its end: a newline at the end goes, and then a carriage return -/
def Text.chomp (s : String) : String :=
  let cs := s.toList
  if cs.getLast? = some '\n' then
    let cs := cs.dropLast
    String.ofList (if cs.getLast? = some '\r' then cs.dropLast else cs)
  else s

namespace Source

open Text

/-! ## Segments -/

/-- what a read answers that has come to the end of a line or of the input -/
def reply (bytes : Bytes) : Except IoError (Option String) :=
  match decode? bytes with
  | some text => .ok (some (chomp text))
  | none => .error ⟨.invalidData, "stream did not contain valid UTF-8"⟩

/-- a part of the input that one read takes up -/
inductive Segment where
  /-- bytes and the newline after them -/
  | line (bytes : Bytes) (hinner : newline ∉ bytes)
  /-- bytes and the failure that cuts them off -/
  | broken (bytes : Bytes) (hinner : newline ∉ bytes) (e : IoError)

def Segment.arrivals : Segment → List Arrival
  | line bytes _ => (bytes ++ [newline]).map .byte
  | broken bytes _ e => bytes.map .byte ++ [.failure e]

/-- the bytes before a failure are lost -/
def Segment.answer : Segment → Except IoError (Option String)
  | line bytes _ => reply (bytes ++ [newline])
  | broken _ _ e => .error e

/-- an input cut into segments, and the bytes before its end -/
structure Cut where
  segments : List Segment
  rest : Bytes
  inner : newline ∉ rest

namespace Cut

def arrivals (cut : Cut) : List Arrival := cut.segments.flatMap Segment.arrivals ++ cut.rest.map .byte

/-- the answers up to the end of input; if no bytes come before the end, there is no answer for them -/
def answers (cut : Cut) : List (Except IoError (Option String)) :=
  cut.segments.map Segment.answer ++ if cut.rest = [] then [] else [reply cut.rest]

/-- Everything that can arrive can be cut. -/
theorem exists_of (row : List Arrival) : ∃ cut : Cut, cut.arrivals = row := by
  induction row with
  | nil => exact ⟨⟨[], [], List.not_mem_nil⟩, rfl⟩
  | cons arrival row ih =>
    obtain ⟨⟨segments, rest, hinner⟩, rfl⟩ := ih
    cases arrival with
    | failure e => exact ⟨⟨.broken [] List.not_mem_nil e :: segments, rest, hinner⟩, rfl⟩
    | byte b =>
      by_cases hb : b = newline
      · subst hb
        exact ⟨⟨.line [] List.not_mem_nil :: segments, rest, hinner⟩, rfl⟩
      -- any other byte goes to the segment that follows it
      · have hlonger : ∀ {bytes}, newline ∉ bytes → newline ∉ b :: bytes := fun hbytes hmem =>
          (List.mem_cons.1 hmem).elim (fun h => hb h.symm) hbytes
        cases segments with
        | nil => exact ⟨⟨[], b :: rest, hlonger hinner⟩, rfl⟩
        | cons segment segments =>
          cases segment with
          | line bytes hinner' => exact ⟨⟨.line (b :: bytes) (hlonger hinner') :: segments, rest, hinner⟩, rfl⟩
          | broken bytes hinner' e => exact ⟨⟨.broken (b :: bytes) (hlonger hinner') e :: segments, rest, hinner⟩, rfl⟩

end Cut

/-! ## Lines and their ends -/

theorem chomp_of_inner {s : String} (hinner : newline ∉ encode s) : chomp s = s := by
  refine if_neg fun hlast => hinner ?_
  obtain ⟨cs, hsplit⟩ := List.getLast?_eq_some_iff.1 hlast
  have hwhole : s = (String.ofList cs).push '\n' := by
    rw [← String.toList_inj, String.toList_push, String.toList_ofList, hsplit]
  rw [hwhole, encode_push]
  exact List.mem_append_right _ (List.mem_singleton_self _)

theorem chomp_newline (s : String) :
    chomp (s.push '\n') = if s.toList.getLast? = some '\r' then String.ofList s.toList.dropLast else s := by
  simp only [chomp, String.toList_push, List.getLast?_concat, if_true, List.dropLast_concat]
  split_ifs
  · rfl
  · exact String.ofList_toList

/-- taking the end off the bytes and taking it off the text is the same -/
theorem finish_line {bytes : Bytes} (hinner : newline ∉ bytes) :
    some <$> finish (bytes ++ [newline]) = reply (bytes ++ [newline]) := by
  have hspelled : decode? (bytes ++ [newline]) = (decode? bytes).map fun s => s.push '\n' :=
    decode?_concat (by decide) bytes
  rw [finish, reply, stripEnd_line, hspelled]
  split_ifs with hreturn
  · obtain ⟨before, rfl⟩ := List.getLast?_eq_some_iff.1 hreturn
    have hspelled' : decode? (before ++ [carriageReturn]) = (decode? before).map fun s => s.push '\r' :=
      decode?_concat (by decide) before
    rw [List.dropLast_concat, hspelled']
    cases decode? before with
    | none => rfl
    | some s =>
      have hends : chomp ((s.push '\r').push '\n') = s := by
        rw [chomp_newline, String.toList_push, List.getLast?_concat, if_pos rfl, List.dropLast_concat,
          String.ofList_toList]
      simp only [Option.map_some, hends]
      rfl
  · cases hs : decode? bytes with
    | none => rfl
    | some s =>
      have hends : chomp (s.push '\n') = s := by
        rw [chomp_newline, if_neg]
        intro hlast
        obtain ⟨cs, hsplit⟩ := List.getLast?_eq_some_iff.1 hlast
        have hwhole : s = (String.ofList cs).push '\r' := by
          rw [← String.toList_inj, String.toList_push, String.toList_ofList, hsplit]
        rw [decode?_eq_some_iff, hwhole, encode_push] at hs
        apply hreturn
        rw [← hs]
        exact List.getLast?_concat
      simp only [Option.map_some, hends]
      rfl

theorem finish_rest {bytes : Bytes} (hinner : newline ∉ bytes) : some <$> finish bytes = reply bytes := by
  rw [finish, reply, stripEnd_inner hinner]
  cases hs : decode? bytes with
  | none => rfl
  | some s =>
    have hends : chomp s = s := chomp_of_inner (by rwa [decode?_eq_some_iff.1 hs])
    simp only [hends]
    rfl

/-! ## Reads -/

def readLines : (n : Nat) → Source → List (Except IoError (Option String))
  | 0, _ => []
  | n + 1, source => source.readLine.1 :: readLines n source.readLine.2

variable {source : Source}

/-- one read takes one segment -/
theorem readLine_segment {segment : Segment} {more : List Arrival}
    (hdelivers : source.arrivals = segment.arrivals ++ more) :
    source.readLine.1 = segment.answer ∧ source.readLine.2.arrivals = more := by
  obtain ⟨hread, hleft⟩ := readFrom_arrivals [] source
  rw [hdelivers] at hread hleft
  cases segment with
  | line bytes hinner =>
    rw [Segment.arrivals, List.map_append, List.append_assoc, readArrivals_bytes hinner, List.map_singleton,
      List.singleton_append, readArrivals, if_pos rfl] at hread hleft
    exact ⟨hread.trans (finish_line hinner), hleft⟩
  | broken bytes hinner e =>
    rw [Segment.arrivals, List.append_assoc, readArrivals_bytes hinner] at hread hleft
    exact ⟨hread, hleft⟩

/-- after the last segment, a read takes the bytes that are left, or tells the end of input -/
theorem readLine_rest {rest : Bytes} (hinner : newline ∉ rest) (hdelivers : source.arrivals = rest.map .byte) :
    source.readLine.1 = (if rest = [] then .ok none else reply rest) ∧ source.readLine.2.arrivals = [] := by
  obtain ⟨hread, hleft⟩ := readFrom_arrivals [] source
  rw [hdelivers, ← List.append_nil (rest.map Arrival.byte), readArrivals_bytes hinner, readArrivals] at hread hleft
  refine ⟨hread.trans ?_, hleft⟩
  rw [List.nil_append, finish_rest hinner]
  simp only [List.isEmpty_iff]

theorem readLines_end (hdelivers : source.arrivals = []) (n : Nat) :
    source.readLines n = List.replicate n (.ok none) := by
  induction n generalizing source with
  | zero => rfl
  | succ n ih =>
    obtain ⟨hread, hleft⟩ := readLine_rest List.not_mem_nil hdelivers
    rw [readLines, hread, ih hleft]
    rfl

/-- of a row that goes on with the same answer, no more of it is needed than is read -/
theorem take_append_replicate {α : Type} (answers : List α) (a : α) (n : Nat) :
    (answers ++ List.replicate (n + 1) a).take n = (answers ++ List.replicate n a).take n := by
  rw [List.take_append, List.take_append, List.take_replicate, List.take_replicate, Nat.min_eq_left (by omega),
    Nat.min_eq_left (by omega)]

/-- **Reading follows the segments.** Whatever chunks the input arrives in, what it delivers can be cut into segments. Reads
one after another answer for the segments in order: for a line or the last bytes with their text less its end, or with
invalid data if they spell no text; for bytes cut off by a failure with that failure. After that they tell the end of
input again and again. -/
theorem readLine_follows_segments (source : Source) :
    (∃ cut : Cut, cut.arrivals = source.arrivals) ∧
    ∀ cut : Cut, cut.arrivals = source.arrivals → ∀ n,
      source.readLines n = (cut.answers ++ List.replicate n (Except.ok none)).take n := by
  refine ⟨Cut.exists_of source.arrivals, fun cut hdelivers n => ?_⟩
  obtain ⟨segments, rest, hinner⟩ := cut
  induction segments generalizing source n with
  | nil =>
    cases n with
    | zero => rfl
    | succ n =>
      obtain ⟨hread, hleft⟩ := readLine_rest hinner hdelivers.symm
      rw [readLines, hread, readLines_end hleft]
      by_cases hnone : rest = []
      · simp [Cut.answers, hnone, List.replicate_succ]
      · simp [Cut.answers, hnone, List.take_replicate]
  | cons segment segments ih =>
    cases n with
    | zero => rfl
    | succ n =>
      rw [Cut.arrivals, List.flatMap_cons, List.append_assoc] at hdelivers
      obtain ⟨hread, hleft⟩ := readLine_segment hdelivers.symm
      rw [readLines, hread, ih source.readLine.2 n hleft.symm, Cut.answers, Cut.answers, List.map_cons,
        List.cons_append, List.cons_append, List.take_succ_cons, take_append_replicate]

/-- A chunk ends within `é`, an interruption comes in between, and another chunk ends before the newline; then a failure cuts
`a` off, a line is no text, and the last bytes end with a carriage return. -/
theorem readLine_follows_segments_severed :
    readLines 6 [.data [195], .failure ⟨.interrupted, "again"⟩, .data [169, 13], .data [10, 97],
        .failure ⟨.brokenPipe, "gone"⟩, .data [255, 10, 98, 13]] =
      [.ok (some "é"), .error ⟨.brokenPipe, "gone"⟩, .error ⟨.invalidData, "stream did not contain valid UTF-8"⟩,
        .ok (some "b\r"), .ok none, .ok none] := by
  let source : Source := [.data [195], .failure ⟨.interrupted, "again"⟩, .data [169, 13], .data [10, 97],
    .failure ⟨.brokenPipe, "gone"⟩, .data [255, 10, 98, 13]]
  let cut : Cut := ⟨[.line [195, 169, 13] (by decide), .broken [97] (by decide) ⟨.brokenPipe, "gone"⟩,
    .line [255] (by decide)], [98, 13], by decide⟩
  have hfirst : reply [195, 169, 13, 10] = .ok (some "é") := by decide +kernel
  have hthird : reply [255, 10] = .error ⟨.invalidData, "stream did not contain valid UTF-8"⟩ := by decide +kernel
  have hlast : reply [98, 13] = .ok (some "b\r") := by decide +kernel
  have hanswers : cut.answers = [.ok (some "é"), .error ⟨.brokenPipe, "gone"⟩,
      .error ⟨.invalidData, "stream did not contain valid UTF-8"⟩, .ok (some "b\r")] := by
    rw [← hfirst, ← hthird, ← hlast]
    rfl
  have hreads := (readLine_follows_segments source).2 cut rfl 6
  rw [hanswers] at hreads
  exact hreads

end Source

end ByNeed
