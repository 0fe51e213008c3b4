/-
The echo program mirrors its input, line by line.

Each turn of its loop reads a line and writes it quoted. What is written shows no newlines but those between the lines,
so that there is one line of output for each line of input.
- `echo_step`, `echo_run`: one turn, and as many as there are lines that can be read.
- `echo_mirrors_lines`: the whole program, up to the end of input or the first line that is no text.
-/
import ByNeed.Proofs.Demo.Jobs
import ByNeed.Proofs.Io.Lines
import ByNeed.Proofs.Text.Quoting

namespace ByNeed.Demo

open Text

variable {σ μ : Type} [Device (σ × μ)] {s : Session (Context σ μ) Code Value} {input : Bytes}

/-! ## The loop -/

/-- what echoing a text does to the context -/
def echoed (text : String) : List Act := [.readLine, .ask .stdout (.writeLine (quoteString text))]

/-- one turn: a line is read and written -/
theorem echo_step (hcaptured : s.world.Captured) (hdelivers : s.world.stdin.arrivals = input.map .byte) {l : Bytes}
    {more : List Bytes} (hfirst : lines input = l :: more) {text : String} (hvalid : decode? l = some text)
    (bound : Nat) :
    ∃ rest, echoLines (bound + 1) s = echoLines bound ⟨s.heap, s.events, s.world.after (echoed text)⟩ ∧
      (s.world.after (echoed text)).stdin.arrivals = rest.map .byte ∧ lines rest = more := by
  obtain ⟨line, rest, rfl, hread, hleft, hmore⟩ := Source.readLine_lines hdelivers hfirst
  have hreads : (Host.io Context.readLine : Host (Context σ μ) Code Value (Option String)) s =
      .ok (some text) ⟨s.heap, s.events, s.world.act .readLine⟩ := by
    have hanswer : s.world.readLine.1 = .ok (some text) := by
      refine hread.trans ?_
      rw [Source.finish, hvalid]
      rfl
    rw [Host.io_eq, hanswer]
    rfl
  have hwrites := Host.io_ask (C := Code) (V := Value) (s := ⟨s.heap, s.events, s.world.act .readLine⟩)
    (Context.act_captured hcaptured .readLine).1 .stdout (.writeLine (quoteString text))
  refine ⟨rest, (bind_ok hreads).trans (bind_ok hwrites), ?_, hmore⟩
  exact (congrArg Source.arrivals (Context.ask_rest .stdout _ (s.world.act .readLine)).2.1).trans hleft

/-- as many turns as there are texts at the beginning -/
theorem echo_run (hcaptured : s.world.Captured) (hdelivers : s.world.stdin.arrivals = input.map .byte)
    {before more : List Bytes} (hsplit : lines input = before ++ more) {texts : List String}
    (hvalid : before.mapM decode? = some texts) (bound : Nat) :
    ∃ rest, echoLines (before.length + bound) s =
        echoLines bound ⟨s.heap, s.events, s.world.after (texts.flatMap echoed)⟩ ∧
      (s.world.after (texts.flatMap echoed)).stdin.arrivals = rest.map .byte ∧ lines rest = more := by
  induction before generalizing s input texts with
  | nil =>
    cases hvalid
    refine ⟨input, ?_, hdelivers, hsplit⟩
    rw [List.length_nil, Nat.zero_add]
    rfl
  | cons l before ih =>
    simp only [List.mapM_cons, Option.bind_eq_bind, Option.bind_eq_some_iff] at hvalid
    obtain ⟨text, hl, later, hbefore, htexts⟩ := hvalid
    cases htexts
    obtain ⟨rest, hstep, hleft, hrest⟩ := echo_step hcaptured hdelivers hsplit hl (before.length + bound)
    obtain ⟨rest', hrun, hleft', hrest'⟩ := ih (s := ⟨s.heap, s.events, s.world.after (echoed text)⟩)
      (Context.after_captured hcaptured (echoed text)) hleft hrest hbefore
    refine ⟨rest', ?_, ?_, hrest'⟩
    · rw [List.length_cons, Nat.add_right_comm, hstep, hrun, List.flatMap_cons, Context.after_append]
    · rw [List.flatMap_cons, Context.after_append]
      exact hleft'

/-- at the end of input the loop ends -/
theorem echo_end (hdelivers : s.world.stdin.arrivals = []) (bound : Nat) :
    echoLines (bound + 1) s = .ok () ⟨s.heap, s.events, s.world.act .readLine⟩ := by
  have hanswer : s.world.readLine.1 = .ok none := Source.readLine_end hdelivers
  have hreads : (Host.io Context.readLine : Host (Context σ μ) Code Value (Option String)) s =
      .ok none ⟨s.heap, s.events, s.world.act .readLine⟩ := by
    rw [Host.io_eq, hanswer]
    rfl
  exact bind_ok hreads

/-- at a line that is no text the loop fails -/
theorem echo_fails (hdelivers : s.world.stdin.arrivals = input.map .byte) {l : Bytes} {more : List Bytes}
    (hfirst : lines input = l :: more) (hinvalid : decode? l = none) (bound : Nat) :
    echoLines (bound + 1) s =
      .error (.failed (.io "stream did not contain valid UTF-8")) ⟨s.heap, s.events, s.world.act .readLine⟩ := by
  obtain ⟨line, rest, rfl, hread, -, -⟩ := Source.readLine_lines hdelivers hfirst
  have hanswer : s.world.readLine.1 = .error ⟨.invalidData, "stream did not contain valid UTF-8"⟩ := by
    refine hread.trans ?_
    rw [Source.finish, hinvalid]
    rfl
  have hreads : (Host.io Context.readLine : Host (Context σ μ) Code Value (Option String)) s =
      .error (.failed (.io "stream did not contain valid UTF-8")) ⟨s.heap, s.events, s.world.act .readLine⟩ := by
    rw [Host.io_eq, hanswer]
    rfl
  exact bind_error hreads

/-- there are turns enough for all lines and one more -/
theorem lines_lt_lineBound (chunks : List Bytes) :
    (lines chunks.flatten).length < lineBound (chunks.map .data) := by
  refine (length_lines_le chunks.flatten).trans_lt ?_
  induction chunks with
  | nil => exact Nat.zero_lt_one
  | cons bytes chunks ih =>
    rw [List.flatten_cons, List.length_append, List.map_cons, lineBound]
    omega

/-! ## The program -/

def mirrored (texts : List String) : Bytes := texts.flatMap fun text => encode (quoteString text) ++ [Handle.newline]

/-- each text is one line of output -/
theorem lines_mirrored (texts : List String) :
    lines (mirrored texts) = texts.map fun text => encode (quoteString text) := by
  have hpieces : mirrored texts =
      (texts.map fun text => encode (quoteString text)).flatMap fun line => line ++ [Source.newline] := by
    rw [List.flatMap_map]
    rfl
  rw [hpieces]
  refine lines_written fun line hline b hb => ?_
  obtain ⟨text, -, rfl⟩ := List.mem_map.1 hline
  have hvisible := byte_of_quoteString hb
  refine ⟨?_, ?_⟩ <;> rintro rfl <;> exact absurd hvisible (by decide)

theorem bytes_echoed (texts : List String) :
    (texts.flatMap echoed ++ [Act.readLine]).flatMap (Act.bytes .stdout) = mirrored texts := by
  rw [List.flatMap_append, List.flatMap_assoc]
  simp [echoed, Act.bytes, mirrored, Handle.Request.bytes]

/-- **Echo mirrors its input.** The input arrives in chunks of any kind, and the output is captured, buffered in either way
and with any capacity. If all lines of the input are texts, the program succeeds, and standard output has got each of
them quoted, one a line; so there are as many lines of output as lines of input. If a line is the first that is no text,
the program fails with an input error, and standard output has got the texts before. -/
theorem echo_mirrors_lines {fuel : Nat} (henough : 2 ≤ fuel) (settings : Settings) (chunks : List Bytes)
    (heap : Heap Unit Code Value) (events : List String) :
    let run : Host (Context Target) Code Value (Except Failure (Option Int32)) := do
      (dialect fuel).runProgram (← Program.echo.entry)
    let s : Session (Context Target) Code Value := ⟨heap, events, .fresh settings (chunks.map .data) .memory .memory⟩
    (∀ texts, (lines chunks.flatten).mapM decode? = some texts →
      ∃ s', run s = .ok (.ok none) s' ∧ s'.world.stdout.buffer = [] ∧ s'.world.stdout.delivered = mirrored texts ∧
        lines s'.world.stdout.delivered = texts.map fun text => encode (quoteString text)) ∧
    ∀ before l after texts, lines chunks.flatten = before ++ l :: after → before.mapM decode? = some texts →
      decode? l = none →
        ∃ s', run s = .ok (.error (.eval (.io "stream did not contain valid UTF-8"))) s' ∧
          s'.world.stdout.buffer = [] ∧ s'.world.stdout.delivered = mirrored texts := by
  intro run s
  let s₀ : Session (Context Target) Code Value := ⟨heap.push (.value (.action (.primitive .echo))), events, s.world⟩
  have hcaptured : s₀.world.Captured := Context.fresh_captured settings (chunks.map .data)
  have hdelivers : s₀.world.stdin.arrivals = chunks.flatten.map .byte := Source.arrivals_data chunks
  have henters : (dialect fuel).Enters heap.size s₀ (.primitive .echo) s₀ :=
    enters_ready henough (Heap.outcome?_eq_some.2 Array.getElem?_push_size)
  -- however the loop ends, the last thing that it does is to ask for a line
  have hfinish : ∀ (o : Outcome Unit) (texts : List String),
      Host.attempt (echoLines (lineBound (chunks.map .data))) s₀ =
        .ok o ⟨s₀.heap, s₀.events, (s₀.world.after (texts.flatMap echoed)).act .readLine⟩ →
      ∃ s', run s = .ok ((o.map fun _ => none).mapError .eval) s' ∧
        s'.world.stdout.buffer = [] ∧ s'.world.stdout.delivered = mirrored texts := by
    intro o texts hran
    have hacts : (s₀.world.after (texts.flatMap echoed)).act .readLine =
        s₀.world.after (texts.flatMap echoed ++ [.readLine]) := by
      rw [Context.after_append]
      rfl
    rw [hacts] at hran
    obtain ⟨s', hreturned, hflushed⟩ := runProgram_prints henough henters rfl hran (Context.after_captured hcaptured _)
    obtain ⟨hbuffer, hdelivered⟩ := hflushed .stdout
    refine ⟨s', hreturned, hbuffer, hdelivered.trans ?_⟩
    rw [Context.after_account hcaptured, bytes_echoed]
    rfl
  have hturns := lines_lt_lineBound chunks
  refine ⟨fun texts hvalid => ?_, fun before l after texts hsplit hvalid hinvalid => ?_⟩
  · obtain ⟨bound, hbound⟩ := Nat.exists_eq_add_of_lt hturns
    obtain ⟨rest, hran, hleft, hnone⟩ := echo_run hcaptured hdelivers (List.append_nil _).symm hvalid (bound + 1)
    rw [eq_nil_of_lines hnone] at hleft
    have hended := hran.trans (echo_end hleft bound)
    rw [← Nat.add_assoc, ← hbound] at hended
    obtain ⟨s', hreturned, hbuffer, hdelivered⟩ := hfinish _ texts (Host.attempt_ok hended)
    exact ⟨s', hreturned, hbuffer, hdelivered, hdelivered ▸ lines_mirrored texts⟩
  · have hearlier : before.length < lineBound (chunks.map .data) := by
      rw [hsplit, List.length_append] at hturns
      omega
    obtain ⟨bound, hbound⟩ := Nat.exists_eq_add_of_lt hearlier
    obtain ⟨rest, hran, hleft, hfirst⟩ := echo_run hcaptured hdelivers hsplit hvalid (bound + 1)
    have hfailed := hran.trans (echo_fails hleft hfirst hinvalid bound)
    rw [← Nat.add_assoc, ← hbound] at hfailed
    exact hfinish _ texts (Host.attempt_failed hfailed)

/-- The input is `é`, a tab, and a byte that begins no character, each on a line; a chunk ends within `é`, and one between a
carriage return and its newline. Two lines are mirrored, the tab by its code, and then the program fails; without the
last line it succeeds. -/
theorem echo_mirrors_lines_torn :
    let run : Host (Context Target) Code Value (Except Failure (Option Int32)) := do
      (dialect 2).runProgram (← Program.echo.entry)
    ∃ s s' : Session (Context Target) Code Value,
      run ⟨#[], [],
        .fresh ⟨true, 1, .warn, true⟩ [.data [195], .data [169, 13], .data [10, 9, 10, 255]] .memory .memory⟩ =
        .ok (.error (.eval (.io "stream did not contain valid UTF-8"))) s ∧
      s.world.stdout.delivered = [34, 195, 169, 34, 10, 34, 92, 49, 49, 34, 10] ∧
      run ⟨#[], [], .fresh ⟨false, 8, .warn, true⟩ [.data [195], .data [169, 13], .data [10, 9]] .memory .memory⟩ =
        .ok (.ok none) s' ∧
      s'.world.stdout.delivered = [34, 195, 169, 34, 10, 34, 92, 49, 49, 34, 10] := by
  have htorn : lines [[195], [169, 13], [10, 9, 10, 255]].flatten = [[195, 169], [9]] ++ [255] :: [] := by
    decide +kernel
  have hwhole : lines [[195], [169, 13], [10, 9]].flatten = [[195, 169], [9]] := by decide +kernel
  have htexts : [[195, 169], [9]].mapM decode? = some ["é", "\t"] := by decide +kernel
  have hinvalid : decode? [255] = none := by decide +kernel
  have hwritten : mirrored ["é", "\t"] = [34, 195, 169, 34, 10, 34, 92, 49, 49, 34, 10] := by decide +kernel
  obtain ⟨-, hfails⟩ :=
    echo_mirrors_lines (Nat.le_refl 2) ⟨true, 1, .warn, true⟩ [[195], [169, 13], [10, 9, 10, 255]] #[] []
  obtain ⟨hsucceeds, -⟩ := echo_mirrors_lines (Nat.le_refl 2) ⟨false, 8, .warn, true⟩ [[195], [169, 13], [10, 9]] #[] []
  rw [hwhole] at hsucceeds
  obtain ⟨s, hfailed, -, hdelivered⟩ := hfails _ _ _ _ htorn htexts hinvalid
  obtain ⟨s', hsucceeded, -, hdelivered', -⟩ := hsucceeds _ htexts
  exact ⟨s, s', hfailed, hdelivered.trans hwritten, hsucceeded, hdelivered'.trans hwritten⟩

end ByNeed.Demo
