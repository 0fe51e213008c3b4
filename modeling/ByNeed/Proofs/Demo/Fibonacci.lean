/-
The Fibonacci list and the program that prints one of its elements.

An element is the Fibonacci number of its position as long as that number is a word, and an overflow from then on.
- `fibOf_eq`: what the elements are.
- `printFib_settles`: the job of the program, whatever number it is given.
- `fib_by_need`: the whole program; and elements of the list demanded in any order, with the additions that are made.
-/
import Mathlib.Data.Nat.Fib.Basic
import ByNeed.Proofs.Demo.Primes
import ByNeed.Proofs.Demo.Sharing

namespace ByNeed.Demo

open Machine Legend Host

/-! ## The elements -/

theorem fit_eq (n : Nat) : Checked.fit n = if n < 2 ^ 63 then .ok (word n) else .error .overflow := by
  have htop : ((Nat.pow 2 63 : Nat) : Int) = 2 ^ 63 := by decide
  by_cases hbelow : n < 2 ^ 63
  · have hfits : -(Nat.pow 2 63 : Nat) ≤ (n : Int) ∧ (n : Int) < (Nat.pow 2 63 : Nat) := by omega
    rw [if_pos hbelow, Checked.fit, Checked.fit?, if_pos hfits]
    rfl
  · have htooLarge : ¬ (-(Nat.pow 2 63 : Nat) ≤ (n : Int) ∧ (n : Int) < (Nat.pow 2 63 : Nat)) := by omega
    rw [if_neg hbelow, Checked.fit, Checked.fit?, if_neg htooLarge]

/-- the element at a position, as a number -/
theorem fibOf_eq (i : Nat) :
    fibOf i = if Nat.fib i < 2 ^ 63 then .ok (word (Nat.fib i)) else .error .overflow := by
  have htop : limit = 2 ^ 63 - 1 := limit_eq_pow
  fun_induction fibOf i with
  | case1 => rfl
  | case2 => rfl
  | case3 i hfirst hsecond =>
    have hsum : Nat.fib i.succ.succ = Nat.fib i + Nat.fib (i + 1) := Nat.fib_add_two
    rw [hfirst, hsecond, hsum]
    by_cases hleft : Nat.fib i < 2 ^ 63
    · by_cases hright : Nat.fib (i + 1) < 2 ^ 63
      · have hadded : (word (Nat.fib i)).toInt + (word (Nat.fib (i + 1))).toInt =
            ((Nat.fib i + Nat.fib (i + 1) : Nat) : Int) := by
          rw [toInt_word_of_le (by omega), toInt_word_of_le (by omega), Nat.cast_add]
        rw [if_pos hleft, if_pos hright, ← fit_eq, ← hadded]
        rfl
      · rw [if_pos hleft, if_neg hright, if_neg (by omega)]
        rfl
    · have htooLarge : ¬ Nat.fib i + Nat.fib (i + 1) < 2 ^ 63 := by omega
      rw [if_neg hleft, if_neg htooLarge]
      rfl

/-- the beginning of the list from some position on: its last element decides -/
theorem take_fibs (i n : Nat) : (Seq.fibs.drop i).take (n + 1) =
    some (if Nat.fib (i + n) < 2 ^ 63 then .ok ((List.range' i (n + 1)).map fun k => word (Nat.fib k))
      else .error .overflow) := by
  have hnode : (Seq.fibs.drop i) 0 =
      .item (if Nat.fib i < 2 ^ 63 then .ok (word (Nat.fib i)) else .error .overflow) := by
    rw [Seq.drop_apply, Nat.zero_add, Seq.fibs, fibOf_eq]
  induction n generalizing i with
  | zero =>
    rw [Seq.take, hnode, Nat.add_zero]
    by_cases hbelow : Nat.fib i < 2 ^ 63
    · rw [if_pos hbelow, if_pos hbelow]
      rfl
    · rw [if_neg hbelow, if_neg hbelow]
  | succ n ih =>
    have hgrows : Nat.fib i ≤ Nat.fib (i + (n + 1)) := Nat.fib_mono (Nat.le_add_right i _)
    have hnext := ih (i + 1) (by rw [Seq.drop_apply, Nat.zero_add, Seq.fibs, fibOf_eq])
    rw [Nat.succ_add_eq_add_succ] at hnext
    rw [Seq.take, hnode]
    by_cases hfirst : Nat.fib i < 2 ^ 63
    · rw [if_pos hfirst]
      simp only [Seq.drop_drop, Nat.add_comm 1 i, hnext, Option.map_some]
      by_cases hlast : Nat.fib (i + n.succ) < 2 ^ 63
      · rw [if_pos hlast, if_pos hlast]
        rfl
      · rw [if_neg hlast, if_neg hlast]
        rfl
    · rw [if_neg hfirst, if_neg (by omega)]

/-! ## The program -/

/-- the beginning of the list is read from outside -/
theorem take_settles {W : Type} {Γ : Legend} {s : Session W Code Value} {xs : Ref} {bound : Ordinal.{0}}
    (hfits : Γ.Fits s.heap) (hcalm : Γ.Calm s.heap) (hlist : Γ.IsList xs .fibs fun _ => bound) (n : Nat) :
    ∃ t, Settles (fun fuel => take (engine fuel) (n + 1) xs) s
        (if Nat.fib n < 2 ^ 63 then .ok (((List.range' 0 (n + 1)).map fun k => word (Nat.fib k)).map .int)
          else .error .overflow) t ∧ t.world = s.world := by
  have hyields := takeFrom_yields hfits hcalm hlist [] (n + 1)
  have hall : Seq.fibs.take (n + 1) = _ := take_fibs 0 n
  rw [hall, Nat.zero_add] at hyields
  obtain ⟨Γ', t, hsettles, -⟩ := hyields
  refine ⟨t, ?_, settles_world hsettles fun fuel => takeFrom_world (engine fuel) [] (n + 1) xs⟩
  by_cases hbelow : Nat.fib n < 2 ^ 63
  · simp only [if_pos hbelow] at hsettles ⊢
    exact hsettles
  · simp only [if_neg hbelow] at hsettles ⊢
    exact hsettles

section

variable {σ μ : Type} [Device (σ × μ)] {s t : Session (Context σ μ) Code Value}

def printLast (n : Nat) (beginning : List Value) : Host (Context σ μ) Code Value Unit :=
  match beginning.getLast? with
  | none => throw (.failed (.pattern "fib"))
  | some v => writeLine ("fib " ++ toString n ++ " = " ++ intText v)

/-- the job, up to its result -/
def printFib (E : Engine Empty Code Value) (n : Nat) : Host (Context σ μ) Code Value Unit := do
  if Nat.pow 2 64 ≤ n + 1 then throw (.failed (.user "fib: index out of range"))
  printLast n (← take E (n + 1) (← Host.delay .fibs))

theorem perform_fib (E : Engine Empty Code Value) (n : Nat) (s : Session (Context σ μ) Code Value) :
    Job.perform E (.fib n) s = (printFib E n >>= fun _ => Host.ready .unit) s := by
  rw [Job.perform, printFib]
  split_ifs
  · rfl
  · simp only [bind_assoc]
    refine congrFun (bind_congr fun xs => bind_congr fun beginning => ?_) s
    rw [printLast]
    cases beginning.getLast? <;> rfl

def fibOutcome (n : Nat) : Outcome Unit :=
  if Nat.fib n < 2 ^ 63 then .ok ()
  else if Nat.pow 2 64 ≤ n + 1 then .error (.user "fib: index out of range") else .error .overflow

def fibLine (n : Nat) : Act := .ask .stdout (.writeLine ("fib " ++ toString n ++ " = " ++ toString (Nat.fib n)))

/-- what the job does to the context -/
def fibActs (n : Nat) : List Act := if Nat.fib n < 2 ^ 63 then [fibLine n] else []

/-- the numbers outgrow words early -/
theorem fib_large {n : Nat} (hfar : 93 ≤ n) : ¬ Nat.fib n < 2 ^ 63 := by
  have hfirst : 2 ^ 63 ≤ Nat.fib 93 := by decide +kernel
  exact Nat.not_lt.2 (hfirst.trans (Nat.fib_mono hfar))

theorem printLast_settles (hcaptured : s.world.Captured) {n : Nat} (hbelow : Nat.fib n < 2 ^ 63) :
    Settles (fun _ => printLast n (((List.range' 0 (n + 1)).map fun k => word (Nat.fib k)).map .int)) s (.ok ())
      ⟨s.heap, s.events, s.world.act (fibLine n)⟩ := by
  have htop := limit_eq_pow
  have hlast : (((List.range' 0 (n + 1)).map fun k => word (Nat.fib k)).map Value.int).getLast? =
      some (.int (word (Nat.fib n))) := by
    rw [List.range'_1_concat, List.map_append, List.map_append, List.getLast?_append, Nat.zero_add]
    rfl
  have htext : intText (.int (word (Nat.fib n))) = toString (Nat.fib n) := by
    rw [intText, toInt_word_of_le (by omega)]
    rfl
  have hwrites := io_ask (C := Code) (V := Value) hcaptured .stdout
    (.writeLine ("fib " ++ toString n ++ " = " ++ toString (Nat.fib n)))
  simp only [printLast, hlast, htext]
  exact Settles.of_ok hwrites

/-- the job prints the number, or fails -/
theorem printFib_settles (hcaptured : s.world.Captured) (n : Nat) :
    ∃ t, Settles (fun fuel => printFib (engine fuel) n) s (fibOutcome n) t ∧ t.world = s.world.after (fibActs n) := by
  simp only [printFib, fibOutcome, fibActs]
  by_cases hfar : Nat.pow 2 64 ≤ n + 1
  · have hlarge : ¬ Nat.fib n < 2 ^ 63 := fib_large (by have : Nat.pow 2 64 = 2 ^ 64 := rfl; omega)
    simp only [if_pos hfar, if_neg hlarge]
    exact ⟨s, (Settles.ofOutcome (.error _) s).bind_error, rfl⟩
  · simp only [if_neg hfar]
    have hfits : Legend.Fits (fun _ => none) s.heap := ⟨nofun, nofun, nofun⟩
    obtain ⟨xs, t₁, Γ, bound, hmade, hgrows, hlist⟩ := build_makes .fibs hfits
    have hworld₁ : t₁.world = s.world := by
      cases hmade
      rfl
    obtain ⟨t₂, hsettles, hworld₂⟩ := take_settles hgrows.fits (hgrows.keeps_calm nofun) hlist n
    rw [hworld₁] at hworld₂
    by_cases hbelow : Nat.fib n < 2 ^ 63
    · simp only [if_pos hbelow] at hsettles ⊢
      have hprints := printLast_settles (s := t₂) (by rwa [hworld₂]) hbelow
      rw [hworld₂] at hprints
      exact ⟨_, (Settles.of_ok hmade).bind (hsettles.bind hprints), rfl⟩
    · simp only [if_neg hbelow] at hsettles ⊢
      exact ⟨t₂, (Settles.of_ok hmade).bind hsettles.bind_error, hworld₂⟩

end

/-! ## By need -/

/-- the outcome of the element at a position -/
def fibValue (i : Nat) : Outcome Value :=
  if Nat.fib i < 2 ^ 63 then .ok (.int (word (Nat.fib i))) else .error (.user "arithmetic overflow")

theorem map_fibOf (i : Nat) : .int <$> fibOf i = fibValue i := by
  rw [fibOf_eq, fibValue]
  split_ifs <;> rfl

/-- what the program that prints a Fibonacci number ends with -/
def fibEnd (n : Nat) : Except Failure (Option Int32) :=
  if Nat.fib n < 2 ^ 63 then .ok none
  else if n = 2 ^ 64 - 1 then .error (.eval (.user "fib: index out of range"))
  else .error (.eval (.user "arithmetic overflow"))

def fibText (n : Nat) : Bytes :=
  if Nat.fib n < 2 ^ 63 then
    Text.encode ("fib " ++ toString n ++ " = " ++ toString (Nat.fib n)) ++ [Handle.newline]
  else []

theorem fibOutcome_end {n : Nat} (husable : n < 2 ^ 64) :
    ((fibOutcome n).map fun _ => none).mapError .eval = fibEnd n := by
  have hlast : Nat.pow 2 64 ≤ n + 1 ↔ n = 2 ^ 64 - 1 := by
    have : Nat.pow 2 64 = 2 ^ 64 := rfl
    omega
  simp only [fibOutcome, fibEnd, hlast]
  split_ifs <;> rfl

theorem bytes_fibActs (n : Nat) :
    (fibActs n).flatMap (Act.bytes .stdout) = fibText n ∧ (fibActs n).flatMap (Act.bytes .stderr) = [] := by
  rw [fibActs, fibText]
  split_ifs
  · rw [List.flatMap_singleton, List.flatMap_singleton]
    exact ⟨rfl, rfl⟩
  · exact ⟨rfl, rfl⟩

/-- **Fibonacci numbers by need.** The program, with its output captured, prints the number it is asked for and succeeds,
if that is a word; otherwise it prints nothing and fails, with an overflow or, for the last index there is, because of
the index. Of a new list, elements are demanded in any order and any number of times, given enough steps: each comes to
its Fibonacci number or to an overflow. An addition is made for a position at most once, of the elements in the cells of
the two positions before it, and only if this or a later position is demanded. -/
theorem fib_by_need :
    (∀ n < 2 ^ 64, ∀ (settings : Settings) (stdin : Source) (heap : Heap Unit Code Value) (events : List String),
      ∃ steps, ∀ fuel ≥ steps,
        let run : Host (Context Target) Code Value (Except Failure (Option Int32)) := do
          (dialect fuel).runProgram (← (Program.fib n).entry)
        ∃ s', run ⟨heap, events, .fresh settings stdin .memory .memory⟩ = .ok (fibEnd n) s' ∧
          s'.world.stdout.buffer = [] ∧ s'.world.stdout.delivered = fibText n ∧
          s'.world.stderr.buffer = [] ∧ s'.world.stderr.delivered = []) ∧
    ∀ (is : List Nat) (heap : Heap Unit Code Value) (events : List String), ∃ steps, ∀ fuel ≥ steps,
      ∃ xs t₀ t, ∃ (cell : Nat → Ref) (ps : List Nat),
        Host.delay .fibs ⟨heap, events, []⟩ = .ok xs t₀ ∧
        elementsAt (engine fuel) is xs t₀ = .ok (is.map fibValue) t ∧
        (∀ i ∈ is, ∀ k ≤ i, headAt? t.heap k xs = some (cell k)) ∧ cell.Injective ∧
        t.world.filter Code.isPlus = ps.map (fun p => .enter .plus [cell (p + 1), cell p]) ∧
        ps.Nodup ∧ ∀ p ∈ ps, ∃ i ∈ is, p + 2 ≤ i := by
  refine ⟨fun n husable settings stdin heap events => ?_, fun is heap events => ?_⟩
  · let s : Session (Context Target) Code Value :=
      ⟨heap.push (.value (.action (.primitive (.fib n)))), events, .fresh settings stdin .memory .memory⟩
    have hcaptured : s.world.Captured := Context.fresh_captured settings stdin
    obtain ⟨t, hjob, hacts⟩ := printFib_settles hcaptured n
    obtain ⟨steps, hprinted⟩ := hjob.ends
    refine ⟨max 2 steps, fun fuel hfuel => ?_⟩
    have hready : s.heap.outcome? heap.size = some (.ok (.action (.primitive (.fib n)))) :=
      Heap.outcome?_eq_some.2 Array.getElem?_push_size
    have henters := enters_ready (le_of_max_le_left hfuel) hready
    obtain ⟨s', hreturned, hflushed⟩ := runProgram_prints (le_of_max_le_left hfuel) henters (perform_fib _ n s)
      (hprinted fuel (le_of_max_le_right hfuel)) (hacts ▸ Context.after_captured hcaptured _)
    rw [fibOutcome_end husable] at hreturned
    obtain ⟨hbufferOut, hout⟩ := hflushed .stdout
    obtain ⟨hbufferErr, herr⟩ := hflushed .stderr
    rw [hacts, Context.after_account hcaptured] at hout herr
    rw [(bytes_fibActs n).1] at hout
    rw [(bytes_fibActs n).2] at herr
    exact ⟨s', hreturned, hbufferOut, hout, hbufferErr, herr⟩
  · let t₀ : Session (List Code) Code Value := ⟨heap.push (.pending (.fibs heap.size)), events, []⟩
    have hwatched : Fibs.Watched heap.size 0 [] t₀ :=
      ⟨⟨Array.size_push _, Array.getElem?_push_size⟩, List.nodup_nil, List.forall_mem_nil _, rfl⟩
    obtain ⟨k, ps, t, hsettles, hwatched', -, hinside, hlow⟩ := Fibs.elementsAt_settles hwatched is
    obtain ⟨steps, henough⟩ := hsettles.ends
    refine ⟨steps, fun fuel hfuel => ⟨heap.size, t₀, t, Fibs.elem heap.size, ps, rfl, ?_, ?_, ?_, hwatched'.log,
      hwatched'.nodup, hlow⟩⟩
    · have hended := attempt_ok_iff.1 (henough fuel hfuel)
      simp only [map_fibOf] at hended
      exact hended
    · intro i hi j hj
      have hread := Fibs.headAt?_eq hwatched'.shape (i := 0) (n := j) (by have := hinside i hi; omega)
      rwa [Nat.zero_add] at hread
    · exact fun i j hsame => Fibs.elem_inj.1 hsame

/-- The largest Fibonacci number that is a word is printed, the next one is an overflow, and the last index is refused.
Elements are demanded out of order, one of them behind the first overflow. -/
theorem fib_by_need_limits :
    let run (fuel n : Nat) : Host (Context Target) Code Value (Except Failure (Option Int32)) := do
      (dialect fuel).runProgram (← (Program.fib n).entry)
    let s : Session (Context Target) Code Value := ⟨#[], [], .fresh ⟨true, 16, .warn, true⟩ [] .memory .memory⟩
    (∃ fuel s', run fuel 92 s = .ok (.ok none) s' ∧
      s'.world.stdout.delivered = Text.encode "fib 92 = 7540113804746346429\n") ∧
    (∃ fuel s', run fuel 93 s = .ok (.error (.eval (.user "arithmetic overflow"))) s' ∧
      s'.world.stdout.delivered = []) ∧
    (∃ fuel s', run fuel (2 ^ 64 - 1) s = .ok (.error (.eval (.user "fib: index out of range"))) s' ∧
      s'.world.stdout.delivered = []) ∧
    ∃ fuel xs t₀ t, Host.delay .fibs ⟨#[], [], []⟩ = .ok xs t₀ ∧ elementsAt (engine fuel) [5, 94, 3] xs t₀ =
      .ok [.ok (.int 5), .error (.user "arithmetic overflow"), .ok (.int 2)] t := by
  intro run s
  obtain ⟨hprints, hdemands⟩ := fib_by_need
  have hfits : Nat.fib 92 = 7540113804746346429 := by decide +kernel
  have hfive : Nat.fib 5 = 5 := by decide
  have htwo : Nat.fib 3 = 2 := by decide
  refine ⟨?_, ?_, ?_, ?_⟩
  · obtain ⟨fuel, henough⟩ := hprints 92 (by norm_num) ⟨true, 16, .warn, true⟩ [] #[] []
    obtain ⟨s', hreturned, -, hdelivered, -⟩ := henough fuel le_rfl
    have htext : fibText 92 = Text.encode "fib 92 = 7540113804746346429\n" := by
      rw [fibText, hfits, if_pos (by norm_num)]
      decide +kernel
    rw [fibEnd, hfits, if_pos (by norm_num)] at hreturned
    exact ⟨fuel, s', hreturned, hdelivered.trans htext⟩
  · obtain ⟨fuel, henough⟩ := hprints 93 (by norm_num) ⟨true, 16, .warn, true⟩ [] #[] []
    obtain ⟨s', hreturned, -, hdelivered, -⟩ := henough fuel le_rfl
    rw [fibEnd, if_neg (fib_large le_rfl), if_neg (by norm_num)] at hreturned
    rw [fibText, if_neg (fib_large le_rfl)] at hdelivered
    exact ⟨fuel, s', hreturned, hdelivered⟩
  · have hlarge : ¬ Nat.fib (2 ^ 64 - 1) < 2 ^ 63 := fib_large (by norm_num)
    obtain ⟨fuel, henough⟩ := hprints (2 ^ 64 - 1) (by norm_num) ⟨true, 16, .warn, true⟩ [] #[] []
    obtain ⟨s', hreturned, -, hdelivered, -⟩ := henough fuel le_rfl
    rw [fibEnd, if_neg hlarge, if_pos rfl] at hreturned
    rw [fibText, if_neg hlarge] at hdelivered
    exact ⟨fuel, s', hreturned, hdelivered⟩
  · obtain ⟨fuel, henough⟩ := hdemands [5, 94, 3] #[] []
    obtain ⟨xs, t₀, t, -, -, hmade, hread, -⟩ := henough fuel le_rfl
    have hvalues : [5, 94, 3].map fibValue =
        [.ok (.int 5), .error (.user "arithmetic overflow"), .ok (.int 2)] := by
      simp only [List.map_cons, List.map_nil, fibValue, hfive, htwo, if_neg (fib_large (n := 94) (by norm_num))]
      rfl
    rw [hvalues] at hread
    exact ⟨fuel, xs, t₀, t, hmade, hread⟩

end ByNeed.Demo
